import Mist.Hostd.Decorated
import Mist.Hostd.SideServed

/-! The rows of the side-store under its own operations. -/

namespace Mist.Sidestore

open Nfs Option Handler Table

inductive CreatePhase where
  | called
  | tested
  | created
  | refused
  deriving DecidableEq

/-- The store, and the exclusive creates of one name. -/
structure Creates where
  store : SideStore
  calls : List CreatePhase

namespace Creates

/-- Call `i` takes the lock: to test for the row, or to make it. -/
def step (d : Decorator) (key : RowKey) (s : Creates) : Nat × UInt16 × Int64 → Option Creates
  | (i, mode, now) =>
    match s.calls[i]? with
    | some .called =>
      let phase := if (s.store.rows.get key).isSome then .refused else .tested
      some { s with calls := s.calls.set i phase }
    | some .tested => some ⟨d.createRow s.store key 0 mode now, s.calls.set i .created⟩
    | _ => none

/-- No call tests while another one is between its test and its row. -/
def Alone (s : Creates) (a : Nat × UInt16 × Int64) : Prop :=
  s.calls[a.1]? = some .called → .tested ∉ s.calls
  deriving Decidable

/-- One call at most is past its test, and a row that was made is there. -/
structure Single (key : RowKey) (s : Creates) : Prop where
  one : s.calls.count .tested + s.calls.count .created ≤ 1
  made : .created ∈ s.calls → (s.store.rows.get key).isSome

variable {d : Decorator} {key : RowKey} {s s' : Creates} {a : Nat × UInt16 × Int64}

theorem Single.step (h : Single key s) (halone : s.Alone a) (hstep : s.step d key a = some s') :
    Single key s' := by
  simp only [Creates.step] at hstep
  split at hstep
  · rename_i hi
    cases hstep
    obtain ⟨hlt, hcalled⟩ := List.getElem?_eq_some_iff.mp hi
    have hnone : s.calls.count .tested = 0 := List.count_eq_zero.mpr (halone hi)
    cases hrow : (s.store.rows.get key).isSome with
    | true =>
      refine ⟨?_, fun _ => hrow⟩
      simpa [List.count_set, hlt, hcalled] using h.one
    | false =>
      have hmade : CreatePhase.created ∉ s.calls := fun hmem => by simp [h.made hmem] at hrow
      refine ⟨?_, fun hmem => ?_⟩
      · simp [List.count_set, hlt, hcalled, hnone, List.count_eq_zero.mpr hmade]
      · rcases List.mem_or_eq_of_mem_set hmem with hold | heq
        · exact absurd hold hmade
        · cases heq
  · rename_i hi
    cases hstep
    obtain ⟨hlt, htested⟩ := List.getElem?_eq_some_iff.mp hi
    have hpos : 0 < s.calls.count .tested := List.count_pos_iff.mpr (List.mem_of_getElem? hi)
    have hone := h.one
    refine ⟨?_, fun _ => ?_⟩
    · simp [List.count_set, hlt, htested]
      omega
    · simp [Decorator.createRow, Decorator.put, get_insert]
  · cases hstep

theorem exclusive_creates (d : Decorator) (key : RowKey) (store : SideStore) (n : Nat)
    (h : Runs.Reaches (step d key) Alone ⟨store, List.replicate n .called⟩ s) :
    s.calls.count .created ≤ 1 := by
  have hstart : Single key ⟨store, List.replicate n .called⟩ :=
    ⟨by simp [List.count_replicate], by simp⟩
  have hone := (h.inv hstart fun _ _ _ hs halone hstep => hs.step halone hstep).one
  omega

def race : List (Nat × UInt16 × Int64) := [(0, 0, 0), (1, 0, 0), (0, 0, 0), (1, 0, 0)]

/-- Both creates find no row, and then both make it. -/
theorem exclusive_creates_twice :
    ∃ s, Runs.Reaches (step sumDigest (⟨2, 0⟩, hidden)) (fun _ _ => True)
      ⟨⟨[], [], false⟩, [.called, .called]⟩ s ∧ s.calls.count .created = 2 :=
  Runs.Reaches.exists_of_guarded race (by decide +kernel)

theorem exclusive_creates_pair :
    ∃ s, Runs.Reaches (step sumDigest (⟨2, 0⟩, hidden)) Alone
      ⟨⟨[], [], false⟩, List.replicate 2 .called⟩ s ∧ s.calls = [.created, .refused] ∧
        s.calls.count .created ≤ 1 :=
  Runs.Reaches.exists_of_guarded_and [(0, 0, 0), (0, 0, 0), (1, 0, 0)] (by decide +kernel)
    fun _ hs => exclusive_creates _ _ _ 2 hs

end Creates

/-- What a removal and a touch of a directory do to the names of the guest. -/
structure Inner.Removes {σ : Type} (I : Inner σ) : Prop where
  remove : ∀ dir name isDir s, (I.answer (.op (.remove dir name isDir)) s).1 = .ok () →
    I.entry (I.answer (.op (.remove dir name isDir)) s).2 dir name = false
  touchDir : ∀ dir s, I.entry (I.answer (.touchDir dir) s).2 = I.entry s

namespace Decorator

variable {σ : Type} (d : Decorator) (I : Inner σ) (store : SideStore) (s : σ) (dir : NodeKey)
  (name : List UInt8)

def finds : Bool :=
  !isSideNode dir && I.entry s dir name ||
    (isSideNode dir || isSideName name) && (store.rows.get (dir, name)).isSome

theorem lookupOwned_meets : (d.lookupOwned dir name store).Meets I.answer (fun _ _ => True)
    (fun r _ => ∃ found, r.1 = .ok found ∧ found.toOption.isSome = finds I store s dir name) s := by
  refine owns_then (fun _ _ _ => trivial) ?_
  cases howned : I.owned s dir name with
  | true =>
    have hrow : finds I store s dir name = (store.rows.get (dir, name)).isSome := by
      simp only [Inner.owned, finds] at howned ⊢
      cases hside : isSideNode dir <;> simp_all
    refine meets_bind ⟨fun t ht => ?_, fun _ he => by cases he⟩
    cases ht
    rw [hrow]
    cases store.rows.get (dir, name) with
    | none => exact ⟨_, rfl, rfl⟩
    | some row => exact ⟨_, rfl, rfl⟩
  | false =>
    have hentry : finds I store s dir name = I.entry s dir name := by
      simp only [Inner.owned, finds] at howned ⊢
      cases hname : isSideName name <;> simp_all
    refine ⟨trivial, _, rfl, ?_⟩
    rw [hentry, ← I.lookup_entry]

theorem lookup_meets : (d.lookup dir name store).Meets I.answer (fun _ _ => True)
    (fun r _ => ∃ found, r.1 = .ok found ∧ found.toOption.isSome = finds I store s dir name) s := by
  unfold lookup
  split
  · refine meets_bind ⟨trivial, fun found hfound => ?_, fun _ he => by cases he⟩
    cases hfound
    rw [I.lookup_keeps]
    have hentry := I.lookup_entry dir name s
    cases hreal : (I.answer (.op (.lookup dir name)) s).1 with
    | ok real =>
      refine ⟨_, rfl, ?_⟩
      simp_all [finds, Except.toOption]
    | error e => exact lookupOwned_meets d I store s dir name
  · exact lookupOwned_meets d I store s dir name

theorem remove_meets (isDir : Bool) (hI : I.Removes) : (d.remove dir name isDir store).Meets I.answer
    (fun _ _ => True) (fun r t => r.1 = .ok (.ok ()) → finds I r.2 t dir name =
      (!isSideNode dir && isSideName name && I.entry s dir name &&
        (store.rows.get (dir, name)).isSome)) s := by
  refine owns_then (fun _ _ _ => trivial) ?_
  cases howned : I.owned s dir name with
  | true =>
    refine meets_bind ⟨fun t ht => ?_, fun _ he => by cases he⟩
    cases ht
    cases hrefusal : d.refusal store dir name isDir with
    | some e => exact fun h => by cases h
    | none =>
      refine ⟨trivial, fun _ => ?_⟩
      simp only [Inner.owned] at howned
      cases hside : isSideNode dir <;>
        simp_all [finds, hI.touchDir, drop, get_remove]
  | false =>
    refine meets_bind ⟨trivial, fun r hr => ?_, fun _ he => by cases he⟩
    cases hr
    cases hans : (I.answer (.op (.remove dir name isDir)) s).1 with
    | error e => exact fun h => by cases h
    | ok _ =>
      intro _
      have hgone := hI.remove dir name isDir s hans
      simp only [Inner.owned] at howned
      cases hname : isSideName name <;> simp_all [finds]

/-- After a removal that succeeds a lookup finds nothing, unless a row stood behind a real entry. -/
theorem remove_removes_iff (isDir : Bool) (hI : I.Removes) {store' : SideStore}
    (hok : ((d.remove dir name isDir store).run I.answer s).result = (.ok (.ok ()), store')) :
    (∃ e, ((d.lookup dir name store').run I.answer
        ((d.remove dir name isDir store).run I.answer s).state).result.1 = .ok (.error e)) ↔
      ¬ (isSideNode dir = false ∧ isSideName name ∧ I.entry s dir name ∧
        (store.rows.get (dir, name)).isSome) := by
  have hleft := (remove_meets d I store s dir name isDir hI).run
  obtain ⟨found, hfound, hsome⟩ := (lookup_meets d I store' _ dir name).run
  rw [hok] at hleft
  rw [hleft rfl] at hsome
  cases found with
  | ok real => simp_all [Except.toOption]
  | error e => simp_all [Except.toOption]

def removable : Inner Bool where
  answer
    | .op (.lookup dir name), there =>
      (if there then (oneHidden (.op (.lookup dir name)) 0).1 else .error .noEnt, there)
    | .op (.remove ..), _ => (.ok (), false)
    | q, there => ((oneHidden q 0).1, there)
  entry there dir name := there && decide (dir = ⟨2, 0⟩ ∧ name = hidden)
  lookup_entry dir name there := by
    by_cases h : dir = ⟨2, 0⟩ ∧ name = hidden <;> cases there <;>
      simp [oneHidden, h, Except.toOption]
  lookup_keeps _ _ _ := rfl

theorem removable_removes : removable.Removes := ⟨fun _ _ _ _ _ => rfl, fun _ _ => rfl⟩

/-- The real `.hidden` goes, and the row behind it comes to light. -/
theorem remove_uncovers :
    let store : SideStore := ⟨[((⟨2, 0⟩, hidden), ⟨0, 0, 0, 1, []⟩)], [], false⟩
    let gone := (sumDigest.remove ⟨2, 0⟩ hidden false store).run removable.answer true
    gone.result = (.ok (.ok ()), store) ∧
      ((sumDigest.lookup ⟨2, 0⟩ hidden store).run removable.answer gone.state).result.1.toOption.any
        fun found => found.isOk := by
  decide +kernel

theorem remove_removes_iff_real :
    ∃ e, ((sumDigest.lookup ⟨2, 0⟩ hidden ⟨[], [], false⟩).run removable.answer
      ((sumDigest.remove ⟨2, 0⟩ hidden false ⟨[], [], false⟩).run removable.answer
        true).state).result.1 = .ok (.error e) :=
  (remove_removes_iff sumDigest removable ⟨[], [], false⟩ true ⟨2, 0⟩ hidden false removable_removes
    rfl).mpr (by decide)

end Decorator

/-- One call of the decorator that is `ok`, whatever the inner surface answers. -/
def Calls (d : Decorator) (ok : SideStore → SurfaceCall → Prop) (s s' : SideStore) : Prop :=
  ∃ (σ : Type) (answer : (q : SurfaceCall) → σ → q.Answer × σ) (t : σ) (now : Int64)
    (call : SurfaceCall), ok s call ∧ ((d.serve now call s).run answer t).result.2 = s'

theorem Calls.served {d : Decorator} {ok : SideStore → SurfaceCall → Prop} {s s' : SideStore}
    (h : Calls d ok s s') : ∃ now call, ok s call ∧ Served d now s call s' := by
  obtain ⟨σ, answer, t, now, call, hok, rfl⟩ := h
  exact ⟨now, call, hok, ((d.serve_served now s call).run answer t).1⟩

section

structure Fits (rows : Table RowKey Row) : Prop where
  nodup : (rows.map Prod.fst).Nodup
  total : totalBytes rows ≤ MAX_TOTAL

/-- A SETATTR keeps the rows within the cap, and so does what a WRITE past the end of the address
space leaves of itself. -/
def Bounded (s : SideStore) : SurfaceCall → Prop
  | .op (.setattr node set) => ∀ key row, Decorator.row s node = .ok (key, row) →
      ∀ sz, set.size = some sz → sz.toNat ≤ MAX_ROW →
        totalBytes s.rows + sz.toNat ≤ MAX_TOTAL + row.data.length
  | .op (.write node offset data _) => ∀ key row, Decorator.row s node = .ok (key, row) →
      offset + .ofNat data.length < offset → (offset + .ofNat data.length).toNat ≤ MAX_ROW →
        totalBytes s.rows + (offset + .ofNat data.length).toNat ≤ MAX_TOTAL + row.data.length
  | _ => True

variable {d : Decorator} {s s' : SideStore} {rows : Table RowKey Row} {key : RowKey}
  {row row' : Row}

def bytesAt (rows : Table RowKey Row) (key : RowKey) : Nat :=
  (rows.get key).elim 0 fun row => row.data.length

theorem totalBytes_remove (h : (rows.map Prod.fst).Nodup) (key : RowKey) :
    totalBytes (rows.remove key) + bytesAt rows key = totalBytes rows := by
  induction rows with
  | nil => rfl
  | cons p rows ih =>
    obtain ⟨hp, hrest⟩ := List.nodup_cons.mp h
    by_cases hpk : p.1 = key
    · subst hpk
      have hremove : Table.remove (p :: rows) p.1 = rows := by
        simpa [remove] using remove_of_notMem hp
      rw [hremove]
      simp [bytesAt, Table.get, totalBytes, Nat.add_comm]
    · simp_all [Table.remove, Table.get, totalBytes, bytesAt]
      omega

theorem Fits.remove (h : Fits rows) (key : RowKey) : Fits (rows.remove key) := by
  have hremove := totalBytes_remove h.nodup key
  exact ⟨h.nodup.sublist (List.filter_sublist.map _), by have := h.total; omega⟩

theorem Fits.insert (h : Fits rows)
    (hrow : totalBytes rows + row.data.length ≤ MAX_TOTAL + bytesAt rows key) :
    Fits (rows.insert key row) := by
  have hremove := totalBytes_remove h.nodup key
  refine ⟨List.nodup_cons.mpr ⟨by simp [Table.remove], (h.remove key).nodup⟩, ?_⟩
  simp only [Table.insert, totalBytes]
  omega

theorem oldest_mem {p : RowKey × Row} (h : oldest rows = some p) : p ∈ rows := by
  induction rows generalizing p with
  | nil => cases h
  | cons q rows ih =>
    simp only [oldest] at h
    cases hrest : oldest rows with
    | none => simp_all
    | some r =>
      have hr := ih hrest
      rw [hrest] at h
      dsimp only at h
      split at h <;> cases h <;> simp [hr]

theorem eq_nil_of_oldest (h : oldest rows = none) : rows = [] := by
  cases rows with
  | nil => rfl
  | cons q rows =>
    simp only [oldest] at h
    split at h
    · cases h
    · split at h <;> cases h

theorem evictLoop_fits {n : Nat} (hn : s.rows.length ≤ n) (h : (s.rows.map Prod.fst).Nodup) :
    Fits (d.evictLoop n (totalBytes s.rows) s).rows := by
  induction n generalizing s with
  | zero =>
    have hnil : s.rows = [] := List.length_eq_zero_iff.mp (Nat.le_zero.mp hn)
    exact ⟨h, by simp [Decorator.evictLoop, hnil, totalBytes]⟩
  | succ n ih =>
    unfold Decorator.evictLoop
    split_ifs with hover
    · cases hold : oldest (d.order s.rows) with
      | none =>
        have hnil := eq_nil_of_oldest hold ▸ d.order_perm s.rows
        rw [List.nil_perm.mp hnil] at hover
        exact absurd hover (Nat.not_lt_zero _)
      | some p =>
        obtain ⟨key, row⟩ := p
        have hmem := (d.order_perm s.rows).mem_iff.mp (oldest_mem hold)
        have hremove := totalBytes_remove h key
        rw [bytesAt, get_of_mem h hmem, elim_some] at hremove
        have htotal : totalBytes s.rows - row.data.length = totalBytes (d.drop s key).rows := by
          simp only [Decorator.drop]
          omega
        dsimp only
        rw [htotal]
        refine ih ?_ (h.sublist (List.filter_sublist.map _))
        have hlt : (s.rows.remove key).length < s.rows.length :=
          List.length_filter_lt_length_iff_exists.mpr ⟨_, hmem, by simp⟩
        exact Nat.le_of_lt_succ (Nat.lt_of_lt_of_le hlt hn)
    · exact ⟨h, Nat.not_lt.mp ‹_›⟩

theorem Fits.sweep (doomed : List RowKey) (h : Fits s.rows) :
    Fits (doomed.foldl d.drop s).rows :=
  List.foldlRecOn doomed d.drop (motive := (Fits ·.rows)) h fun _ h key _ => h.remove key

theorem bytesAt_row {node : NodeKey} (h : Decorator.row s node = .ok (key, row)) :
    bytesAt s.rows key = row.data.length := by
  unfold Decorator.row at h
  split at h
  · cases h
  split at h
  · cases h
  · cases h
    simp [bytesAt, *]

theorem length_resize (data : List UInt8) (n : Nat) : (resize data n).length = n := by
  simp [resize]
  omega

theorem Fits.served {now : Int64} {call : SurfaceCall} (h : Fits s.rows) (hok : Bounded s call)
    (hserved : Served d now s call s') : Fits s'.rows := by
  have htotal := h.total
  cases hserved with
  | idle => exact h
  | @create dir name =>
    refine Fits.sweep _ (h.insert (Nat.add_le_add htotal (Nat.le_of_eq ?_)))
    cases hrow : s.rows.get (dir, name) <;> simp [bytesAt, hrow]
  | remove hrow => exact h.remove _
  | companion =>
    unfold Decorator.dropCompanion
    split
    · exact h.remove _
    · exact h
  | @rename fromDir toDir fromName toName row hrow =>
    refine (h.remove (fromDir, fromName)).insert ?_
    have hremove := totalBytes_remove h.nodup (fromDir, fromName)
    rw [bytesAt, hrow, elim_some] at hremove
    omega
  | @setattr node set key row row' dirty r hrow hset =>
    refine h.insert ?_
    rw [bytesAt_row hrow]
    simp only [Row.setattr] at hset
    split at hset
    · cases hset
      exact Nat.add_le_add_right htotal _
    rename_i hsize
    cases hset
    cases hsz : set.size with
    | none => exact Nat.add_le_add_right htotal _
    | some sz =>
      rw [elim_some, length_resize]
      exact hok key row hrow sz hsz (by simpa [hsz] using hsize)
  | write hrow hwrite =>
    refine evictLoop_fits (Nat.le_refl _) (List.nodup_cons.mpr ⟨?_, (h.remove _).nodup⟩)
    simp [Table.remove]
  | @panic node offset data sync key row row' panic hrow hwrite =>
    refine h.insert ?_
    rw [bytesAt_row hrow]
    simp only [Row.write] at hwrite
    split at hwrite
    · cases hwrite
    rename_i hstop
    split at hwrite
    · cases hwrite
      split
      · rw [length_resize]
        exact hok key row hrow ‹_› (Nat.not_lt.mp hstop)
      · exact Nat.add_le_add_right htotal _
    · cases hwrite

/-- The rows fit after every call of a run. -/
theorem rows_fit (h : Fits s.rows) (hrun : Relation.ReflTransGen (Calls d Bounded) s s') :
    totalBytes s'.rows ≤ MAX_TOTAL := by
  have hfits : Fits s'.rows := by
    induction hrun with
    | refl => exact h
    | tail _ hcall ih =>
      obtain ⟨now, call, hok, hserved⟩ := hcall.served
      exact ih.served hok hserved
  exact hfits.total

theorem setattr_run {σ : Type} {answer : (q : SurfaceCall) → σ → q.Answer × σ} {t : σ} {now : Int64}
    {node : NodeKey} {set : NfsSetAttr} (hside : isSideNode node)
    (hrow : Decorator.row s node = .ok (key, row)) (hset : row.setattr set now = (.ok (), row')) :
    ((d.serve now (.op (.setattr node set)) s).run answer t).result.2 =
      { s with rows := s.rows.insert key row', dirty := true } := by
  have hleaves : Leaves (fun t => t = { s with rows := s.rows.insert key row', dirty := true })
      (d.setattr now node set) s := by
    refine .ite (fun _ => .get ?_) fun hreal => absurd hside hreal
    rw [hrow]
    dsimp only
    rw [hset]
    exact rfl
  exact (hleaves.run answer t).1

theorem totalBytes_of_length {n : Nat} (h : ∀ p ∈ rows, p.2.data.length = n) :
    totalBytes rows = rows.length * n := by
  induction rows with
  | nil => simp [totalBytes]
  | cons p rows ih =>
    obtain ⟨hp, hrest⟩ := List.forall_mem_cons.mp h
    rw [totalBytes, hp, ih hrest, List.length_cons, Nat.succ_mul, Nat.add_comm]

def marked (rows : Table RowKey Row) : SideStore :=
  let rows := ((⟨2, 0⟩, neverIndex), ⟨0, 0x124, 0, 1, []⟩) :: rows
  ⟨rows, rows.map fun p => (sumDigest.synthKey p.1.1 p.1.2, p.1), false⟩

theorem marked_overfills (hkeys : (⟨2, 0⟩, neverIndex) ∉ rows.map Prod.fst ∧ (rows.map Prod.fst).Nodup)
    (htotal : totalBytes rows = MAX_TOTAL) : ∃ s', Fits (marked rows).rows ∧
      Calls sumDigest (fun _ _ => True) (marked rows) s' ∧ MAX_TOTAL < totalBytes s'.rows := by
  have hrow : Decorator.row (marked rows) (sumDigest.synthKey ⟨2, 0⟩ neverIndex) =
      .ok ((⟨2, 0⟩, neverIndex), ⟨0, 0x124, 0, 1, []⟩) := by
    simp [Decorator.row, marked, Table.get]
  have hdrop : (marked rows).rows.remove (⟨2, 0⟩, neverIndex) = rows := by
    simpa [marked, remove] using remove_of_notMem hkeys.1
  refine ⟨_, ⟨List.nodup_cons.mpr hkeys, ?_⟩, ⟨Nat, oneHidden, 0, 0,
    .op (.setattr (sumDigest.synthKey ⟨2, 0⟩ neverIndex) ⟨none, none, none, some 1, none⟩), trivial,
    setattr_run (by decide) hrow rfl⟩, ?_⟩
  · simp [marked, totalBytes, htotal]
  · rw [Table.insert, hdrop, totalBytes, htotal]
    exact Nat.lt_add_of_pos_left (by decide)

def fullRows : Table RowKey Row :=
  (List.range 64).map fun i =>
    ((⟨2, 0⟩, appleDouble ++ .ofNat (i + 64) :: List.replicate (2 * i + 40) 97),
      ⟨0, 0x1a4, 0, 1, List.replicate MAX_ROW 0⟩)

theorem fullRows_keys :
    (⟨2, 0⟩, neverIndex) ∉ fullRows.map Prod.fst ∧ (fullRows.map Prod.fst).Nodup := by
  have hkeys : fullRows.map Prod.fst = (List.range 64).map fun i =>
      (⟨2, 0⟩, appleDouble ++ .ofNat (i + 64) :: List.replicate (2 * i + 40) 97) := by
    simp [fullRows]
  decide +kernel

theorem fullRows_total : totalBytes fullRows = MAX_TOTAL := by
  have hlength : ∀ p ∈ fullRows, p.2.data.length = MAX_ROW := by
    intro p hp
    obtain ⟨i, -, rfl⟩ := List.mem_map.mp hp
    exact List.length_replicate
  rw [totalBytes_of_length hlength, fullRows, List.length_map, List.length_range]
  rfl

/-- A SETATTR of the marker to one byte, next to rows that fill the store. -/
theorem setattr_overfills : ∃ s', Fits (marked fullRows).rows ∧
    Calls sumDigest (fun _ _ => True) (marked fullRows) s' ∧ MAX_TOTAL < totalBytes s'.rows :=
  marked_overfills fullRows_keys fullRows_total

theorem rows_fit_one : totalBytes
    ((sumDigest.serve 0 (.op (.setattr ⟨SIDE_INO_BIT, 1⟩ ⟨none, none, none, some 3, none⟩))
      ⟨[((⟨2, 0⟩, hidden), ⟨0, 0, 0, 1, []⟩)], [(⟨SIDE_INO_BIT, 1⟩, (⟨2, 0⟩, hidden))], false⟩).run
        oneHidden 0).result.2.rows ≤ MAX_TOTAL := by
  refine rows_fit (d := sumDigest) ⟨by decide, by decide⟩
    (.single ⟨Nat, oneHidden, 0, 0, .op (.setattr ..), ?_, rfl⟩)
  intro key row hrow sz hsz _
  cases hrow
  cases hsz
  decide

end

end Mist.Sidestore
