import Mist.Cas.Accounting

/-! The policy of an eviction that runs alone on exact counters. -/

namespace Mist.Cas

open Candidate

open List KeyMap UInt64

/-- `evict` without other calls in between; `seen` is what it reads. -/
def CasStore.evict (marks : Watermarks) (s : CasStore) (now : UInt64) (seen : Snapshot) : CasStore :=
  if s.loaded ≤ marks.target then s
  else
    let chosen := chooseVictims marks s.loaded now seen
    if chosen.1.isEmpty then s
    else
      { db := s.db.removeRows chosen.1
        totalBytes := s.totalBytes - chosen.2
        blobs := s.blobs - chosen.1.length }

/-- These are the steps of an `evict` call among any others that wait. -/
theorem evict_run (blake3 : List UInt8 → Hash) (marks : Watermarks) (s : CasStore) (now : UInt64)
    {seen : Snapshot} (hseen : seen.Lists s.db.chunks) (threads : List CallPhase) {i : Nat}
    (hi : threads[i]? = some (.called .evict)) :
    Runs.Reaches (Calls.step blake3 marks) (fun _ _ => True) ⟨s, threads⟩
      ⟨s.evict marks now seen, threads.set i .returned⟩ := by
  have hlt := Runs.lt_length hi
  have hstep : ∀ {s s' : CasStore} {p q : CallPhase},
      Calls.advance blake3 marks s now seen p = some (s', q) →
      Runs.Reaches (Calls.step blake3 marks) (fun _ _ => True) ⟨s, threads.set i p⟩
        ⟨s', threads.set i q⟩ := by
    intro s s' p q h
    refine .tail .refl trivial (a := .run i now seen) ?_
    simp only [Calls.step, getElem?_set_self hlt, Option.bind_eq_bind, Option.bind_some, h, set_set]
  have hset : threads = threads.set i (.called .evict) := by
    rw [← (List.getElem?_eq_some_iff.mp hi).2, List.set_getElem_self]
  nth_rewrite 1 [hset]
  refine (hstep (q := .evicting) rfl).trans ?_
  unfold CasStore.evict
  split_ifs with hfits
  · exact hstep (by simp [Calls.advance, hfits])
  have hread : Calls.advance blake3 marks s now seen .evicting = some (s, .reading s.loaded) := by
    simp [Calls.advance, hfits]
  refine (hstep hread).trans ?_
  simp only
  split
  · rename_i hnone
    exact hstep (by simp [Calls.advance, hseen, hnone])
  rename_i hsome
  have hchosen : Calls.advance blake3 marks s now seen (.reading s.loaded) =
      some (s, .removing (chooseVictims marks s.loaded now seen).1
        (chooseVictims marks s.loaded now seen).2) := by
    simp [Calls.advance, hseen, hsome]
  refine (hstep hchosen).trans ?_
  exact ((hstep (q := .freeing _ _) rfl).trans (hstep (q := .freeingBlobs _) rfl)).trans
    (hstep rfl)

section

variable (total target : Nat) {skip : Candidate → Bool} {l : List Candidate}

/-- Over candidates that are not skipped the loop goes to the first point where the rest fits. -/
theorem takeVictims_take (hskip : ∀ c ∈ l, skip c = false)
    (rest : List Candidate) (victims : List Hash) (freed : Nat) :
    ∃ n ≤ l.length, (∀ m < n, target < total - (freed + weigh len (l.take m))) ∧
      ((total - (freed + weigh len (l.take n)) ≤ target ∧
          takeVictims total target skip (l ++ rest) (victims, freed) =
            (victims ++ (l.take n).map hash, freed + weigh len (l.take n))) ∨
        (n = l.length ∧ takeVictims total target skip (l ++ rest) (victims, freed) =
          takeVictims total target skip rest
            (victims ++ l.map hash, freed + weigh len l))) := by
  induction l generalizing victims freed with
  | nil =>
    exact ⟨0, Nat.le_refl _, fun m hm => absurd hm (by omega), .inr ⟨rfl, by simp [weigh]⟩⟩
  | cons c l ih =>
    by_cases hfits : total - freed ≤ target
    · refine ⟨0, Nat.zero_le _, fun m hm => absurd hm (by omega), .inl ⟨?_, ?_⟩⟩
      · simpa [weigh] using hfits
      · simp [takeVictims, hfits, weigh]
    obtain ⟨n, hn, hbefore, hend⟩ :=
      ih (fun d hd => hskip d (.tail _ hd)) (victims ++ [c.hash]) (freed + c.len)
    have hc : skip c = false := hskip c mem_cons_self
    have hnext : takeVictims total target skip (c :: l ++ rest) (victims, freed) =
        takeVictims total target skip (l ++ rest) (victims ++ [c.hash], freed + c.len) := by
      simp [takeVictims, hfits, hc]
    refine ⟨n + 1, Nat.succ_le_succ hn, fun m hm => ?_, ?_⟩
    · cases m with
      | zero =>
        rw [take_zero, weigh]
        omega
      | succ m =>
        have := hbefore m (by omega)
        rwa [take_succ_cons, weigh, ← Nat.add_assoc]
    · rw [hnext, take_succ_cons, weigh, ← Nat.add_assoc]
      refine hend.imp (fun h => ⟨h.1, ?_⟩) fun h => ⟨by rw [h.1]; rfl, ?_⟩
      · rw [h.2]
        simp
      · rw [h.2]
        simp [weigh, Nat.add_assoc]

theorem takeVictims_skip (hskip : ∀ c ∈ l, skip c = true)
    (rest : List Candidate) (acc : List Hash × Nat) (hover : ¬ total - acc.2 ≤ target) :
    takeVictims total target skip (l ++ rest) acc = takeVictims total target skip rest acc := by
  induction l with
  | nil => rfl
  | cons c l ih =>
    have hc : skip c = true := hskip c mem_cons_self
    rw [cons_append, takeVictims, if_neg hover, if_pos hc]
    exact ih fun d hd => hskip d (.tail _ hd)

theorem takeVictims_skip_all (hskip : ∀ c ∈ l, skip c = true)
    (acc : List Hash × Nat) : takeVictims total target skip l acc = acc := by
  by_cases hfits : total - acc.2 ≤ target
  · cases l with
    | nil => rfl
    | cons c l => rw [takeVictims, if_pos hfits]
  · rw [← l.append_nil, takeVictims_skip total target hskip [] acc hfits]
    rfl

end

namespace Snapshot

variable (seen : Snapshot)

theorem byAge_perm : seen.byAge.Perm (seen.rows.map seen.candidate) := mergeSort_perm ..

theorem byAge_sorted : seen.byAge.Pairwise fun a b => a.last ≤ b.last := mergeSort_ordered ..

variable {seen} {chunks : Chunks}

variable (h : seen.Lists chunks)
include h

theorem byAge_nodup : (seen.byAge.map hash).Nodup := by
  refine (seen.byAge_perm.map hash).nodup_iff.mpr ?_
  rw [map_map]
  exact h.1

theorem Lists.lookup {c : Candidate} (hc : c ∈ seen.byAge) :
    ∃ row, chunks.lookup c.hash = some row ∧ row.len.toNat = c.len := by
  obtain ⟨r, hr, rfl⟩ := mem_map.mp (seen.byAge_perm.mem_iff.mp hc)
  exact ⟨r.2, h.2.1 r hr, rfl⟩

theorem Lists.total :
    weigh len seen.byAge = total (fun r => r.len.toNat) chunks := by
  let size : Hash → Nat := fun k => ((chunks.lookup k).map fun r => r.len.toNat).getD 0
  have hnodup := byAge_nodup h
  have hrow : ∀ k ∈ seen.byAge.map hash, ∃ row, chunks.lookup k = some row := by
    intro k hk
    obtain ⟨c, hc, rfl⟩ := mem_map.mp hk
    obtain ⟨row, hrow, -⟩ := h.lookup hc
    exact ⟨row, hrow⟩
  -- without the rows of the snapshot nothing is left
  have hcount := total_eraseAll (fun _ => 1) (fun _ => 1) hnodup fun k hk => by
    obtain ⟨row, hrow⟩ := hrow k hk
    exact ⟨row, hrow, rfl⟩
  have hbytes := total_eraseAll (fun r : ChunkRow => r.len.toNat) size hnodup fun k hk => by
    obtain ⟨row, hrow⟩ := hrow k hk
    exact ⟨row, hrow, by simp [size, hrow]⟩
  have hlength : (seen.byAge.map hash).length = seen.rows.length := by
    rw [length_map, seen.byAge_perm.length_eq, length_map]
  rw [weigh_one, hlength, h.2.2] at hcount
  have hnone : KeyMap.total (fun r => r.len.toNat)
      (eraseAll chunks (seen.byAge.map hash)) = 0 := by
    have hzero : KeyMap.total (fun _ => 1)
        (eraseAll chunks (seen.byAge.map hash)) = 0 := by omega
    refine (total_eq_zero _).mpr fun k row hk => ?_
    exact absurd ((total_eq_zero _).mp hzero k row hk) (by decide)
  rw [hnone, Nat.zero_add, weigh_map] at hbytes
  rw [← hbytes]
  refine weigh_congr fun c hc => ?_
  obtain ⟨row, hrow, hlen⟩ := h.lookup hc
  simp [size, hrow, hlen]

end Snapshot

section

variable {seen : Snapshot} (now : UInt64)

theorem Candidate.hot_mono {now : UInt64} {a b : Candidate} (hab : a.last ≤ b.last)
    (h : a.hot now) : b.hot now := by
  rw [le_iff_toNat_le] at hab
  simp only [hot, decide_eq_true_eq] at h ⊢
  omega

theorem hot_split {rows : List Candidate} (h : rows.Pairwise fun a b => a.last ≤ b.last) :
    ∃ cold warm, rows = cold ++ warm ∧ (∀ c ∈ cold, c.hot now = false) ∧
      ∀ c ∈ warm, c.hot now = true := by
  induction rows with
  | nil => exact ⟨[], [], rfl, nofun, nofun⟩
  | cons a rows ih =>
    obtain ⟨hfirst, hrest⟩ := pairwise_cons.mp h
    by_cases ha : a.hot now
    · refine ⟨[], a :: rows, rfl, nofun, fun c hc => ?_⟩
      rcases mem_cons.mp hc with rfl | hc
      · exact ha
      · exact hot_mono (hfirst c hc) ha
    · obtain ⟨cold, warm, rfl, hcold, hwarm⟩ := ih hrest
      refine ⟨a :: cold, warm, rfl, fun c hc => ?_, hwarm⟩
      rcases mem_cons.mp hc with rfl | hc
      · simpa using ha
      · exact hcold c hc

/-- The victims are the first `n` rows by age. -/
structure Chosen (marks : Watermarks) (total : Nat) (now : UInt64) (rows : List Candidate)
    (n : Nat) : Prop where
  needed : ∀ m < n, marks.target.toNat < total - weigh Candidate.len (rows.take m)
  capped : total - weigh Candidate.len (rows.take n) ≤ marks.maxBytes.toNat
  spared : ∀ c ∈ rows.take n, c.hot now →
    marks.maxBytes.toNat < total - weigh Candidate.len (rows.filter fun c => !c.hot now)

theorem chooseVictims_chosen {marks : Watermarks} (hcap : marks.target ≤ marks.maxBytes)
    {chunks : Chunks} (hseen : seen.Lists chunks) {total : UInt64}
    (htotal : total.toNat = weigh len seen.byAge) :
    ∃ n, Chosen marks total.toNat now seen.byAge n ∧ chooseVictims marks total now seen =
      ((seen.byAge.take n).map hash, weigh len (seen.byAge.take n)) := by
  rw [le_iff_toNat_le] at hcap
  obtain ⟨cold, warm, hsplit, hcold, hwarm⟩ := hot_split now seen.byAge_sorted
  have hfilter : seen.byAge.filter (fun c => !c.hot now) = cold := by
    rw [hsplit, filter_append, filter_eq_self.mpr fun c hc => by rw [hcold c hc]; rfl,
      filter_eq_nil_iff.mpr fun c hc => by rw [hwarm c hc]; decide, append_nil]
  have hdisjoint : ∀ c ∈ warm, (cold.map hash).contains c.hash = false := by
    intro c hc
    have hnodup := Snapshot.byAge_nodup hseen
    rw [hsplit, map_append] at hnodup
    rw [contains_eq_mem, decide_eq_false_iff_not]
    exact fun hmem => disjoint_of_nodup_append hnodup hmem (mem_map_of_mem hc)
  obtain ⟨n, hn, hbefore, hend⟩ := takeVictims_take total.toNat marks.target.toNat hcold warm [] 0
  simp only [Nat.zero_add, nil_append] at hbefore hend
  have htake : ∀ m ≤ cold.length, seen.byAge.take m = cold.take m := fun m hm => by
    rw [hsplit, take_append_of_le_length hm]
  have hspared : ∀ m ≤ cold.length, ∀ c ∈ seen.byAge.take m, c.hot now → False := by
    intro m hm c hc hhot
    rw [htake m hm] at hc
    rw [hcold c (mem_of_mem_take hc)] at hhot
    cases hhot
  unfold chooseVictims
  rw [hsplit]
  rcases hend with ⟨hfits, hfirst⟩ | ⟨rfl, hfirst⟩
  · -- the unprotected rows are enough
    rw [hfirst, if_neg (by simp only; omega), ← hsplit, ← htake n hn]
    refine ⟨n, ⟨fun m hm => ?_, ?_, fun c hc hhot => (hspared n hn c hc hhot).elim⟩, rfl⟩
    · rw [htake m (by omega)]
      exact hbefore m hm
    · rw [htake n hn]
      omega
  rw [takeVictims_skip_all total.toNat marks.target.toNat hwarm] at hfirst
  rw [hfirst]
  by_cases hover : marks.maxBytes.toNat < total.toNat - weigh len cold
  · -- the hard cap: on with the protected rows
    rw [if_pos hover, takeVictims_skip _ _ (fun c hc => ?_) warm _ (by simp only; omega)]
    · obtain ⟨k, hk, hafter, hlast⟩ := takeVictims_take total.toNat marks.target.toNat hdisjoint []
        (cold.map hash) (weigh len cold)
      have hrows : ∀ m, (cold ++ warm).take (cold.length + m) = cold ++ warm.take m := fun m =>
        take_length_add_append m
      have hchosen : ∀ r : List Hash × Nat,
          r = ((cold ++ warm.take k).map hash, weigh len (cold ++ warm.take k)) →
          total.toNat - weigh len (cold ++ warm.take k) ≤ marks.maxBytes.toNat →
          ∃ n, Chosen marks total.toNat now (cold ++ warm) n ∧
            r = (((cold ++ warm).take n).map hash, weigh len ((cold ++ warm).take n)) := by
        intro r hr hcapped
        refine ⟨cold.length + k, ⟨fun m hm => ?_, ?_, fun _ _ _ => ?_⟩, ?_⟩
        · by_cases hlow : m < cold.length
          · have := hbefore m hlow
            rwa [← hsplit, htake m (by omega)]
          · obtain ⟨j, rfl⟩ := Nat.exists_eq_add_of_le (Nat.not_lt.mp hlow)
            have := hafter j (by omega)
            rwa [hrows, weigh_append]
        · rw [hrows]
          exact hcapped
        · rw [← hsplit, hfilter]
          exact hover
        · rw [hrows]
          exact hr
      rw [append_nil] at hlast
      rcases hlast with ⟨hfits, hsecond⟩ | ⟨rfl, hsecond⟩
      · refine hchosen _ (by rw [hsecond, map_append, weigh_append]) ?_
        rw [weigh_append]
        omega
      refine hchosen _ ?_ ?_
      · rw [hsecond, take_length, map_append, weigh_append]
        rfl
      · rw [take_length, ← hsplit, htotal]
        omega
    · rw [contains_eq_mem, decide_eq_true_eq]
      exact mem_map_of_mem hc
  · rw [if_neg hover]
    refine ⟨cold.length, ⟨fun m hm => ?_, ?_, fun c hc hhot => ?_⟩, ?_⟩
    · rw [← hsplit, htake m (by omega)]
      exact hbefore m hm
    · rw [take_left]
      omega
    · rw [← hsplit] at hc
      exact (hspared _ (by omega) c hc hhot).elim
    · rw [take_left]

/-- It takes the first rows by last use, no more than it needs, and a protected one only for the
hard cap. -/
theorem evict_policy {marks : Watermarks} (hcap : marks.target ≤ marks.maxBytes) {s : CasStore}
    {seen : Snapshot} (hseen : seen.Lists s.db.chunks)
    (hexact : s.totalBytes = KeyMap.total (fun r => r.len.toNat) s.db.chunks)
    (hword : s.loaded.toNat = KeyMap.total (fun r => r.len.toNat) s.db.chunks)
    (hover : marks.target < s.loaded) :
    ∃ n, (∀ h, (s.evict marks now seen).db.chunks.lookup h =
        if h ∈ (seen.byAge.take n).map Candidate.hash then none else s.db.chunks.lookup h) ∧
      (s.evict marks now seen).totalBytes =
        KeyMap.total (fun r => r.len.toNat) (s.evict marks now seen).db.chunks ∧
      (s.evict marks now seen).totalBytes ≤ marks.maxBytes.toNat ∧
      (∀ a ∈ seen.byAge.take n, ∀ b ∈ seen.byAge.drop n, a.last ≤ b.last) ∧
      (∀ c ∈ seen.byAge.take n, c.hot now → marks.maxBytes.toNat <
        s.loaded.toNat - weigh Candidate.len (seen.byAge.filter fun c => !c.hot now)) ∧
      ∀ m < n, marks.target.toNat < s.loaded.toNat - weigh Candidate.len (seen.byAge.take m) := by
  obtain ⟨n, hchosen, hvictims⟩ :=
    chooseVictims_chosen now hcap hseen (hword.trans hseen.total.symm)
  set victims := seen.byAge.take n with hdef
  have hmem : ∀ c ∈ victims, c ∈ seen.byAge := fun c hc => mem_of_mem_take hc
  have hevict : (s.evict marks now seen).db.chunks =
        s.db.chunks.eraseAll (victims.map hash) ∧
      (s.evict marks now seen).totalBytes = s.totalBytes - weigh len victims := by
    rw [CasStore.evict, if_neg (UInt64.not_le.mpr hover), hvictims]
    cases victims with
    | nil => exact ⟨rfl, (Int.sub_zero _).symm⟩
    | cons c rest => exact ⟨rfl, rfl⟩
  -- what is freed are the lengths of the rows that go
  let size : Hash → Nat := fun k => ((s.db.chunks.lookup k).map fun r => r.len.toNat).getD 0
  have hfreed : weigh size (victims.map hash) = weigh len victims := by
    rw [weigh_map]
    refine weigh_congr fun c hc => ?_
    obtain ⟨row, hrow, hlen⟩ := hseen.lookup (hmem c hc)
    simp [size, hrow, hlen]
  have hnodup : (victims.map hash).Nodup :=
    (Snapshot.byAge_nodup hseen).sublist ((take_sublist n _).map _)
  have hleft := total_eraseAll (fun r : ChunkRow => r.len.toNat) size hnodup fun k hk => by
    obtain ⟨c, hc, rfl⟩ := mem_map.mp hk
    obtain ⟨row, hrow, -⟩ := hseen.lookup (hmem c hc)
    exact ⟨row, hrow, by simp [size, hrow]⟩
  have hcapped := hchosen.capped
  rw [← hdef] at hcapped
  refine ⟨n, fun h => ?_, ?_, ?_, ?_, hchosen.spared, hchosen.needed⟩
  · rw [hevict.1, lookup_eraseAll]
    by_cases hgone : h ∈ victims.map hash
    · rw [if_pos hgone, if_pos hgone]
    · rw [if_neg hgone, if_neg hgone]
  · rw [hevict.1, hevict.2, hexact, ← hleft]
    omega
  · omega
  · have hsorted := seen.byAge_sorted
    rw [← take_append_drop n seen.byAge] at hsorted
    exact (pairwise_append.mp hsorted).2.2

def threeRows : CasStore :=
  ⟨⟨[], ((∅ : Chunks).insert [1] ⟨4, 0⟩ |>.insert [2] ⟨4, 900⟩ |>.insert [3] ⟨4, 950⟩)⟩, 12, 3⟩

def threeSeen : Snapshot := ⟨[([1], ⟨4, 0⟩), ([2], ⟨4, 900⟩), ([3], ⟨4, 950⟩)], fun _ => 0⟩

theorem evict_policy_threeRows :
    (threeRows.evict ⟨8, 8⟩ 1000 threeSeen).totalBytes ≤ 8 ∧
      (threeRows.evict ⟨4, 4⟩ 1000 threeSeen).totalBytes ≤ 4 := by
  have hseen : threeSeen.Lists threeRows.db.chunks := by decide +kernel
  have hword : threeRows.loaded.toNat =
      total (fun r => r.len.toNat) threeRows.db.chunks := by decide +kernel
  constructor
  · obtain ⟨-, -, -, hcapped, -⟩ := @evict_policy 1000 ⟨8, 8⟩ (by decide) threeRows threeSeen hseen
      (by decide +kernel) hword (by decide +kernel)
    exact hcapped
  · obtain ⟨-, -, -, hcapped, -⟩ := @evict_policy 1000 ⟨4, 4⟩ (by decide) threeRows threeSeen hseen
      (by decide +kernel) hword (by decide +kernel)
    exact hcapped

end

end Mist.Cas
