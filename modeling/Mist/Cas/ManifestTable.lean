import Mist.Cas.Store
import Mist.Runs

/-! The manifest table under all of its writers. -/

namespace Mist.Cas

open Nfs List Option Manifests

def Ordered (l : List ChunkRef) : Prop := l.Pairwise fun a b => a.off < b.off
  deriving Decidable

/-- `binary_search_by_key` of the offset, with what the library promises for sorted lists. -/
structure BinarySearch where
  search : List ChunkRef → UInt64 → Except Nat Nat
  found : ∀ l off i, Ordered l → search l off = .ok i → ∃ c, l[i]? = some c ∧ c.off = off
  absent : ∀ l off i, Ordered l → search l off = .error i → ∃ below above, l = below ++ above ∧
    below.length = i ∧ (∀ c ∈ below, c.off < off) ∧ ∀ c ∈ above, off < c.off

/-- Replace the chunk at its offset, or insert it where the search says. -/
def BinarySearch.merge (bs : BinarySearch) (chunk : ChunkRef) (l : List ChunkRef) : List ChunkRef :=
  match bs.search l chunk.off with
  | .ok i => l.set i chunk
  | .error i => l.take i ++ chunk :: l.drop i

section

variable {chunk : ChunkRef} {l below above : List ChunkRef}

theorem setChunk_below (h : ∀ c ∈ below, c.off < chunk.off) :
    setChunk chunk (below ++ above) = below ++ setChunk chunk above := by
  induction below with
  | nil => rfl
  | cons c below ih =>
    have hc : c.off < chunk.off := h c mem_cons_self
    have hne : c.off ≠ chunk.off := UInt64.ne_of_lt hc
    have hnot : ¬ chunk.off < c.off := fun hlt => UInt64.lt_asymm hc hlt
    rw [cons_append, setChunk, if_neg hne, if_neg hnot,
      ih fun d hd => h d (.tail _ hd), cons_append]

theorem setChunk_above (h : ∀ c ∈ above, chunk.off < c.off) :
    setChunk chunk above = chunk :: above := by
  cases above with
  | nil => rfl
  | cons c above =>
    have hc : chunk.off < c.off := h c mem_cons_self
    rw [setChunk, if_neg (UInt64.ne_of_lt hc).symm, if_pos hc]

/-- On a sorted list the search puts the chunk where it belongs. -/
theorem BinarySearch.merge_eq (bs : BinarySearch) (h : Ordered l) :
    bs.merge chunk l = setChunk chunk l := by
  unfold BinarySearch.merge
  cases hs : bs.search l chunk.off with
  | ok i =>
    obtain ⟨c, hc, hoff⟩ := bs.found l chunk.off i h hs
    obtain ⟨hlt, rfl⟩ := List.getElem?_eq_some_iff.mp hc
    have hsplit : l = l.take i ++ l[i] :: l.drop (i + 1) := by
      rw [getElem_cons_drop, take_append_drop]
    have hbelow : ∀ d ∈ l.take i, d.off < chunk.off := by
      intro d hd
      have hpair := h
      rw [Ordered, hsplit, pairwise_append] at hpair
      rw [← hoff]
      exact hpair.2.2 d hd _ mem_cons_self
    have hset : l.set i chunk = l.take i ++ chunk :: l.drop (i + 1) := by
      rw [set_eq_take_append_cons_drop, if_pos hlt]
    have hsame : setChunk chunk (l[i] :: l.drop (i + 1)) = chunk :: l.drop (i + 1) := by
      rw [setChunk, if_pos hoff]
    change l.set i chunk = _
    rw [hset, ← hsame, ← setChunk_below hbelow, ← hsplit]
  | error i =>
    obtain ⟨below, above, rfl, rfl, hbelow, habove⟩ := bs.absent l chunk.off i h hs
    change (below ++ above).take below.length ++ chunk :: (below ++ above).drop below.length = _
    rw [take_left, drop_left, setChunk_below hbelow, setChunk_above habove]

theorem mem_setChunk (h : Ordered l) {c : ChunkRef} :
    c ∈ setChunk chunk l ↔ c = chunk ∨ (c ∈ l ∧ c.off ≠ chunk.off) := by
  induction l with
  | nil => simp [setChunk]
  | cons d l ih =>
    obtain ⟨hfirst, hrest⟩ := pairwise_cons.mp h
    have hlater : c ∈ l → d.off < c.off := hfirst c
    unfold setChunk
    split
    · rename_i heq
      have hne : c ∈ l → c.off ≠ chunk.off := fun hc => heq ▸ (UInt64.ne_of_lt (hlater hc)).symm
      constructor
      · intro hc
        rcases mem_cons.mp hc with rfl | hc
        · exact .inl rfl
        · exact .inr ⟨.tail _ hc, hne hc⟩
      · rintro (rfl | ⟨hc, hoff⟩)
        · exact .head _
        · rcases mem_cons.mp hc with rfl | hc
          · exact absurd heq hoff
          · exact .tail _ hc
    · rename_i heq
      split
      · rename_i hlt
        have hne : c ∈ d :: l → c.off ≠ chunk.off := by
          intro hc
          rcases mem_cons.mp hc with rfl | hc
          · exact heq
          · exact (UInt64.ne_of_lt (UInt64.lt_trans hlt (hlater hc))).symm
        constructor
        · intro hc
          rcases mem_cons.mp hc with rfl | hc
          · exact .inl rfl
          · exact .inr ⟨hc, hne hc⟩
        · rintro (rfl | ⟨hc, -⟩)
          · exact .head _
          · exact .tail _ hc
      · rw [mem_cons, ih hrest, mem_cons]
        constructor
        · rintro (rfl | rfl | ⟨hc, hoff⟩)
          · exact .inr ⟨.inl rfl, heq⟩
          · exact .inl rfl
          · exact .inr ⟨.inr hc, hoff⟩
        · rintro (rfl | ⟨rfl | hc, hoff⟩)
          · exact .inr (.inl rfl)
          · exact .inl rfl
          · exact .inr (.inr ⟨hc, hoff⟩)

theorem setChunk_ordered (h : Ordered l) : Ordered (setChunk chunk l) := by
  induction l with
  | nil => exact pairwise_singleton _ _
  | cons d l ih =>
    obtain ⟨hfirst, hrest⟩ := pairwise_cons.mp h
    unfold setChunk
    split
    · rename_i heq
      exact pairwise_cons.mpr ⟨fun c hc => heq ▸ hfirst c hc, hrest⟩
    rename_i heq
    split
    · rename_i hlt
      refine pairwise_cons.mpr ⟨fun c hc => ?_, h⟩
      rcases mem_cons.mp hc with rfl | hc
      · exact hlt
      · exact UInt64.lt_trans hlt (hfirst c hc)
    · rename_i hnot
      refine pairwise_cons.mpr ⟨fun c hc => ?_, ih hrest⟩
      rcases (mem_setChunk hrest).mp hc with rfl | ⟨hc, -⟩
      · exact UInt64.lt_of_le_of_ne (UInt64.not_lt.mp hnot) heq
      · exact hfirst c hc

theorem chunkList_ordered (blake3 : List UInt8 → Hash) {pieces : List (UInt64 × List UInt8)}
    (h : (pieces.map Prod.fst).Nodup) : Ordered (chunkList blake3 pieces) := by
  have hsort : (chunkList blake3 pieces).Pairwise fun a b => a.off ≤ b.off := mergeSort_ordered ..
  have hdistinct : (chunkList blake3 pieces).Pairwise fun a b => a.off ≠ b.off := by
    have hperm : (chunkList blake3 pieces).Perm (pieces.map (chunkOf blake3)) := mergeSort_perm ..
    refine (hperm.pairwise_iff fun hab => Ne.symm hab).mpr ?_
    rw [pairwise_map]
    exact pairwise_map.mp h
  exact (hsort.and hdistinct).imp fun hab => UInt64.lt_of_le_of_ne hab.1 hab.2

end

inductive TableCall where
  | putManifest (key : ManifestKey) (chunks : List ChunkRef)
  | mergeChunk (key : ManifestKey) (chunk : ChunkRef)
  | ingestChunk (key : ManifestKey) (off : UInt64) (data : List UInt8)
  | ingestChunks (key : ManifestKey) (pieces : List (UInt64 × List UInt8))
  | rebindManifest (source target : ManifestKey)
  | dropNode (share : UInt16) (node : NodeKey)
  | dropShare (share : UInt16)

namespace TableCall

/-- Distinct offsets, and in `put_manifest` in order. -/
def Valid : TableCall → Prop
  | .putManifest _ chunks => Ordered chunks
  | .ingestChunks _ pieces => (pieces.map Prod.fst).Nodup
  | _ => True

instance : (call : TableCall) → Decidable call.Valid
  | .putManifest _ chunks => inferInstanceAs (Decidable (Ordered chunks))
  | .ingestChunks _ pieces => inferInstanceAs (Decidable (pieces.map Prod.fst).Nodup)
  | .mergeChunk .. | .ingestChunk .. | .rebindManifest .. | .dropNode .. | .dropShare _ =>
    .isTrue trivial

variable (bs : BinarySearch) (blake3 : List UInt8 → Hash)

/-- The chunk that `merge_chunk` and `ingest_chunk` put into a manifest. -/
def merged : TableCall → Option (ManifestKey × ChunkRef)
  | .mergeChunk key chunk => some (key, chunk)
  | .ingestChunk key off data => some (key, chunkOf blake3 (off, data))
  | _ => none

def apply (t : Manifests) : TableCall → Manifests
  | .putManifest key chunks => Manifests.putManifest t key chunks
  | .mergeChunk key chunk => Manifests.putManifest t key (bs.merge chunk ((t.get key).getD []))
  | .ingestChunk key off data =>
    Manifests.putManifest t key (bs.merge (chunkOf blake3 (off, data)) ((t.get key).getD []))
  | .ingestChunks key pieces => Manifests.putManifest t key (chunkList blake3 pieces)
  | .rebindManifest source target => Manifests.rebindManifest t source target
  | .dropNode share node => Manifests.dropNode t share node
  | .dropShare share => Manifests.dropShare t share

def written (t : Manifests) : TableCall → Option ManifestKey
  | .putManifest key _ | .mergeChunk key _ | .ingestChunk key _ _ | .ingestChunks key _ => some key
  | .rebindManifest source target => (t.get source).map fun _ => target
  | .dropNode .. | .dropShare _ => none

def names (j : ManifestKey) : TableCall → Bool
  | .putManifest key _ | .mergeChunk key _ | .ingestChunk key _ _ | .ingestChunks key _ =>
    Manifests.ofNode key j
  | .rebindManifest source target => Manifests.ofNode source j || Manifests.ofNode target j
  | .dropNode share node => j.share = share && j.node = node
  | .dropShare share => j.share = share

end TableCall

section

variable {bs : BinarySearch} {blake3 : List UInt8 → Hash} {t : Manifests} {call : TableCall}

/-- Every chunk list is sorted, and no node has two versions. -/
structure Manifests.WellKept (t : Manifests) : Prop where
  ordered : ∀ key chunks, t.get key = some chunks → Ordered chunks
  one : ∀ key key', (t.get key).isSome → (t.get key').isSome → Manifests.ofNode key key' → key = key'

namespace Manifests

theorem WellKept.of_kept {t' : Manifests} (h : WellKept t)
    (hkept : ∀ key chunks, t'.get key = some chunks → t.get key = some chunks) : WellKept t' := by
  have hsome : ∀ key, (t'.get key).isSome → (t.get key).isSome := by
    intro key hkey
    obtain ⟨chunks, hchunks⟩ := isSome_iff_exists.mp hkey
    rw [hkept key chunks hchunks]
    rfl
  exact ⟨fun key chunks hget => h.ordered key chunks (hkept key chunks hget),
    fun key key' hkey hkey' => h.one key key' (hsome key hkey) (hsome key' hkey')⟩

theorem only_put {key j : ManifestKey} {chunks : List ChunkRef} (hnode : ofNode key j)
    (hj : ((putManifest t key chunks).get j).isSome) : j = key := by
  by_contra hne
  rw [get_putManifest, if_neg hne, if_pos hnode] at hj
  cases hj

theorem ofNode_symm {key j : ManifestKey} (h : ofNode key j) : ofNode j key := by
  simp only [ofNode, Bool.and_eq_true, decide_eq_true_eq] at h ⊢
  exact ⟨h.1.symm, h.2.symm⟩

theorem WellKept.put (h : WellKept t) (key : ManifestKey) {chunks : List ChunkRef}
    (hchunks : Ordered chunks) : WellKept (putManifest t key chunks) := by
  constructor
  · intro j list hget
    rw [get_putManifest] at hget
    split at hget
    · cases hget
      exact hchunks
    · split at hget
      · cases hget
      · exact h.ordered j list hget
  · intro j j' hj hj' hnode
    by_cases hkey : j = key
    · subst hkey
      exact (only_put hnode hj').symm
    by_cases hkey' : j' = key
    · subst hkey'
      exact only_put (ofNode_symm hnode) hj
    -- both were there before
    rw [get_putManifest, if_neg hkey] at hj
    rw [get_putManifest, if_neg hkey'] at hj'
    split at hj
    · cases hj
    · split at hj'
      · cases hj'
      · exact h.one j j' hj hj' hnode

theorem WellKept.remove (h : WellKept t) (key : ManifestKey) : WellKept (t.remove key) :=
  h.of_kept fun _ _ hget => Table.get_of_remove hget

theorem get_cut (t : Manifests) (gone : ManifestKey → Bool) (j : ManifestKey) :
    Table.get (t.filter fun p => !gone p.1) j = if gone j then none else t.get j := by
  rw [Table.get_filter t (fun k => !gone k) j]
  cases gone j <;> rfl

theorem get_dropNode (share : UInt16) (node : NodeKey) (j : ManifestKey) :
    (dropNode t share node).get j = if j.share = share && j.node = node then none else t.get j :=
  get_cut t (fun k => k.share = share && k.node = node) j

theorem get_dropShare (share : UInt16) (j : ManifestKey) :
    (dropShare t share).get j = if j.share = share then none else t.get j := by
  have hcut := get_cut t (fun k => decide (k.share = share)) j
  have hsame : dropShare t share = t.filter fun p => !decide (p.1.share = share) := by
    simp [dropShare]
  rw [hsame, hcut]
  simp

theorem WellKept.getD (h : WellKept t) (key : ManifestKey) : Ordered ((t.get key).getD []) := by
  cases hget : t.get key with
  | none => exact Pairwise.nil
  | some chunks => exact h.ordered key chunks hget

end Manifests

theorem TableCall.apply_wellKept (h : t.WellKept) (hvalid : call.Valid) :
    (call.apply bs blake3 t).WellKept := by
  have hmerge : ∀ key chunk, Ordered (bs.merge chunk ((t.get key).getD [])) := fun key chunk => by
    rw [bs.merge_eq (h.getD key)]
    exact setChunk_ordered (h.getD key)
  cases call with
  | putManifest key chunks => exact h.put key hvalid
  | mergeChunk key chunk => exact h.put key (hmerge key chunk)
  | ingestChunk key off data => exact h.put key (hmerge key _)
  | ingestChunks key pieces => exact h.put key (chunkList_ordered blake3 hvalid)
  | rebindManifest source target =>
    cases hsource : t.get source with
    | none =>
      change (Manifests.rebindManifest t source target).WellKept
      rwa [rebindManifest_none hsource]
    | some chunks =>
      change (Manifests.rebindManifest t source target).WellKept
      rw [Manifests.rebindManifest, hsource]
      exact (h.remove source).put target (h.ordered source chunks hsource)
  | dropNode share node =>
    refine h.of_kept fun key chunks hget => ?_
    rw [TableCall.apply, get_dropNode] at hget
    split at hget
    · cases hget
    · exact hget
  | dropShare share =>
    refine h.of_kept fun key chunks hget => ?_
    rw [TableCall.apply, get_dropShare] at hget
    split at hget
    · cases hget
    · exact hget

theorem TableCall.apply_written {key j : ManifestKey} (hkey : key ∈ call.written t)
    (hnode : ofNode key j) (hj : ((call.apply bs blake3 t).get j).isSome) : j = key := by
  cases call with
  | rebindManifest source target =>
    obtain ⟨chunks, hsource, rfl⟩ := map_eq_some_iff.mp hkey
    rw [TableCall.apply, Manifests.rebindManifest, hsource] at hj
    exact only_put hnode hj
  | dropNode share node => cases hkey
  | dropShare share => cases hkey
  | _ =>
    cases hkey
    exact only_put hnode hj

theorem TableCall.apply_merged (h : t.WellKept) {p : ManifestKey × ChunkRef}
    (hp : p ∈ call.merged blake3) :
    ∃ chunks, (call.apply bs blake3 t).get p.1 = some chunks ∧
      ∀ c, c ∈ chunks ↔ c = p.2 ∨ (c ∈ (t.get p.1).getD [] ∧ c.off ≠ p.2.off) := by
  have hget : (call.apply bs blake3 t).get p.1 = some (bs.merge p.2 ((t.get p.1).getD [])) := by
    cases call <;> cases hp <;> exact (get_putManifest ..).trans (if_pos rfl)
  refine ⟨_, hget, fun c => ?_⟩
  rw [bs.merge_eq (h.getD p.1)]
  exact mem_setChunk (h.getD p.1)

theorem TableCall.apply_frame {j : ManifestKey} (hj : call.names j = false) :
    (call.apply bs blake3 t).get j = t.get j := by
  have hput : ∀ {t : Manifests} {key : ManifestKey} (chunks : List ChunkRef),
      Manifests.ofNode key j = false → (Manifests.putManifest t key chunks).get j = t.get j := by
    intro t key chunks hnode
    have hne : j ≠ key := by
      rintro rfl
      simp [ofNode] at hnode
    rw [get_putManifest, if_neg hne, if_neg (by rw [hnode]; decide)]
  cases call with
  | rebindManifest source target =>
    obtain ⟨hsource, htarget⟩ := Bool.or_eq_false_iff.mp hj
    rw [TableCall.apply, Manifests.rebindManifest]
    split
    · rfl
    have hne : j ≠ source := by
      rintro rfl
      simp [ofNode] at hsource
    rw [hput _ htarget, Table.get_remove, if_neg hne]
  | dropNode share node =>
    have hnot : ¬ (j.share = share && j.node = node) = true := by
      rw [show (j.share = share && j.node = node : Bool) = false from hj]
      decide
    rw [TableCall.apply, get_dropNode, if_neg hnot]
  | dropShare share =>
    rw [TableCall.apply, get_dropShare, if_neg (of_decide_eq_false hj)]
  | _ => exact hput _ hj

/-- After any calls the chunk lists are sorted, and a call changes only the node it names. -/
theorem manifest_table (bs : BinarySearch) (blake3 : List UInt8 → Hash) {t : Manifests}
    (h : Runs.Reaches (fun t call => some (TableCall.apply bs blake3 t call))
      (fun _ call => call.Valid) [] t) :
    (∀ key chunks, t.get key = some chunks → Ordered chunks) ∧
    ∀ call : TableCall, call.Valid →
      (∀ key ∈ call.written t, ∀ j, Manifests.ofNode key j →
        ((call.apply bs blake3 t).get j).isSome → j = key) ∧
      (∀ p ∈ call.merged blake3, ∃ chunks, (call.apply bs blake3 t).get p.1 = some chunks ∧
        ∀ c, c ∈ chunks ↔ c = p.2 ∨ (c ∈ (t.get p.1).getD [] ∧ c.off ≠ p.2.off)) ∧
      ∀ j, call.names j = false → (call.apply bs blake3 t).get j = t.get j := by
  have hstart : WellKept [] := ⟨nofun, nofun⟩
  have hkept : t.WellKept := h.inv hstart fun t call u ht hvalid hu => by
    cases hu
    exact TableCall.apply_wellKept ht hvalid
  exact ⟨hkept.ordered, fun call _ => ⟨fun key hkey j hnode hj =>
    TableCall.apply_written hkey hnode hj, fun p hp => TableCall.apply_merged hkept hp,
    fun j hj => TableCall.apply_frame hj⟩⟩

def searchFront (l : List ChunkRef) (off : UInt64) : Except Nat Nat :=
  match l.findIdx? fun c => off ≤ c.off with
  | some i => if (l[i]?).any fun c => c.off = off then .ok i else .error i
  | none => .error l.length

theorem searchFront_found (l : List ChunkRef) (off : UInt64) (i : Nat) (_ : Ordered l)
    (hs : searchFront l off = .ok i) : ∃ c, l[i]? = some c ∧ c.off = off := by
  unfold searchFront at hs
  split at hs
  · split at hs
    · rename_i hany
      cases hs
      obtain ⟨c, hc, hoff⟩ := (Option.any_eq_true ..).mp hany
      exact ⟨c, hc, of_decide_eq_true hoff⟩
    · cases hs
  · cases hs

theorem searchFront_absent (l : List ChunkRef) (off : UInt64) (i : Nat) (hl : Ordered l)
    (hs : searchFront l off = .error i) : ∃ below above, l = below ++ above ∧
      below.length = i ∧ (∀ c ∈ below, c.off < off) ∧ ∀ c ∈ above, off < c.off := by
  unfold searchFront at hs
  split at hs
  · rename_i k hk
    split at hs
    · cases hs
    rename_i hany
    cases hs
    obtain ⟨hlt, hle, hbefore⟩ := findIdx?_eq_some_iff_getElem.mp hk
    refine ⟨l.take i, l.drop i, (take_append_drop i l).symm, by simp; omega,
      fun c hc => ?_, fun c hc => ?_⟩
    · obtain ⟨j, hj, rfl⟩ := mem_take_iff_getElem.mp hc
      simpa using hbefore j (by omega)
    have hfirst : off < l[i].off := by
      refine UInt64.lt_of_le_of_ne (of_decide_eq_true hle) fun heq => hany ?_
      rw [getElem?_eq_getElem hlt]
      exact decide_eq_true heq.symm
    have hsorted : (l.drop i).Pairwise fun a b => a.off < b.off := Pairwise.drop hl
    rw [← getElem_cons_drop hlt] at hc hsorted
    rcases mem_cons.mp hc with rfl | hc
    · exact hfirst
    · exact UInt64.lt_trans hfirst ((pairwise_cons.mp hsorted).1 c hc)
  · rename_i hnone
    cases hs
    refine ⟨l, [], (append_nil l).symm, rfl, fun c hc => ?_, nofun⟩
    simpa using findIdx?_eq_none_iff.mp hnone c hc

def linearSearch : BinarySearch := ⟨searchFront, searchFront_found, searchFront_absent⟩

theorem manifest_table_merges : ∃ t : Manifests,
    Runs.Reaches (fun t call => some (TableCall.apply linearSearch id t call))
      (fun _ call => call.Valid) [] t ∧
    t.get ⟨1, ⟨2, 0⟩, 7⟩ = some [⟨0, 1, [9]⟩, ⟨4096, 2, [1, 1]⟩] ∧
    ∀ key chunks, t.get key = some chunks → Ordered chunks := by
  obtain ⟨t, ht, hget⟩ : ∃ t : Manifests,
      Runs.Reaches (fun t call => some (TableCall.apply linearSearch id t call))
        (fun _ call => call.Valid) [] t ∧
      t.get ⟨1, ⟨2, 0⟩, 7⟩ = some [⟨0, 1, [9]⟩, ⟨4096, 2, [1, 1]⟩] :=
    Runs.Reaches.exists_of_guarded
      [.ingestChunk ⟨1, ⟨2, 0⟩, 7⟩ 4096 [1, 1], .mergeChunk ⟨1, ⟨2, 0⟩, 7⟩ ⟨0, 3, [5]⟩,
        .ingestChunk ⟨1, ⟨2, 0⟩, 7⟩ 0 [9]]
      (by decide +kernel)
  exact ⟨t, ht, hget, (manifest_table linearSearch id ht).1⟩

end

end Mist.Cas
