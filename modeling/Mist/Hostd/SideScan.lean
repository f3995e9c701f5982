import Mist.Hostd.Decorated

/-! A client that pages through a synthesized directory while its children come and go. -/

namespace Mist.Sidestore

open Nfs List UInt64

/-- A scan: the store, the cookie to go on from, the names returned and whether that is all, and the
stores there were since the scan began. -/
structure SideScan where
  store : SideStore
  cookie : UInt64
  got : List (List UInt8)
  ended : Bool
  moments : List SideStore

namespace SideScan

inductive Move where
  | change (store : SideStore)
  | page (maxEntries : Nat) (wantAttrs : Bool)

def start (store : SideStore) : SideScan := ⟨store, 0, [], false, [store]⟩

section

variable (d : Decorator) (dir : NodeKey)

def step (s : SideScan) : Move → Option SideScan
  | .change store => some { s with store, moments := store :: s.moments }
  | .page maxEntries wantAttrs =>
    if s.ended then none
    else
      match d.readdir dir s.cookie maxEntries wantAttrs s.store with
      | .done (.ok (.ok page), _) =>
        some { s with
          cookie := (page.entries.getLast?.map DirEntry.cookie).getD s.cookie
          got := s.got ++ page.entries.map DirEntry.name
          ended := page.eof }
      | _ => none

/-- The children in the order in which a page lists them. -/
def children (store : SideStore) : List (RowKey × Row) :=
  ((d.order store.rows).filter fun p => p.1.1 = dir).mergeSort fun a b => decide (a.1.2 ≤ b.1.2)

def names (store : SideStore) : List (List UInt8) := (children d dir store).map fun p => p.1.2

def Held (store : SideStore) : Prop :=
  (store.rows.map Prod.fst).Nodup ∧ store.rows.length < 9223372036854775808

/-- A page is asked for while the names returned so far are the first ones of the directory. -/
def Aligned (s : SideScan) : Move → Prop
  | .change store => Held store
  | .page _ _ => s.got <+: names d dir s.store

end

variable {d : Decorator} {dir : NodeKey} {s s' : SideScan} {store : SideStore}

theorem names_nodup (h : Held store) : (names d dir store).Nodup := by
  have hperm : (children d dir store).Perm (store.rows.filter fun p => p.1.1 = dir) :=
    (mergeSort_perm _ _).trans ((d.order_perm store.rows).filter _)
  refine ((hperm.map _).nodup_iff).mpr ?_
  have hkeys : ((store.rows.filter fun p => p.1.1 = dir).map Prod.fst).Nodup :=
    h.1.sublist (filter_sublist.map _)
  have hnames := hkeys.map_on (f := Prod.snd) fun x hx y hy hxy => by
    exact Prod.ext (by simp_all) hxy
  rw [map_map] at hnames
  exact hnames

theorem mem_names {name : List UInt8} (h : (store.rows.get (dir, name)).isSome) :
    name ∈ names d dir store := by
  obtain ⟨row, hrow⟩ := Option.isSome_iff_exists.mp h
  refine mem_map.mpr ⟨((dir, name), row), (mergeSort_perm _ _).mem_iff.mpr ?_, rfl⟩
  simpa using (d.order_perm store.rows).mem_iff.mpr (Table.mem_of_get hrow)

/-- A page that has come to `rows`, with `entries` from the children `before`. -/
theorem pageOf_names (d : Decorator) (cookie : UInt64) (maxEntries : Nat) (wantAttrs : Bool)
    (rows before : List (RowKey × Row)) (entries : List DirEntry)
    (hlen : (before ++ rows).length < 9223372036854775808)
    (hnames : entries.map DirEntry.name = (before.map fun p => p.1.2).drop (cookie.toNat - 2))
    (hlast : ∀ e ∈ entries.getLast?, e.cookie.toNat = before.length + 2) :
    let page := d.pageOf cookie maxEntries wantAttrs before.length entries rows
    ∃ seen, seen <+: before ++ rows ∧
      page.entries.map DirEntry.name = (seen.map fun p => p.1.2).drop (cookie.toNat - 2) ∧
      (∀ e ∈ page.entries.getLast?, e.cookie.toNat = seen.length + 2) ∧
      (page.eof → seen = before ++ rows) := by
  induction rows generalizing before entries with
  | nil => exact ⟨before, by simp, hnames, hlast, fun _ => by simp⟩
  | cons p rows ih =>
    obtain ⟨key, row⟩ := p
    have hcookie : (ofNat before.length + 3).toNat = before.length + 3 := by
      rw [length_append] at hlen
      rw [UInt64.toNat_add, UInt64.toNat_ofNat']
      have : (3 : UInt64).toNat = 3 := rfl
      omega
    have hnext : ∀ es : List DirEntry,
        es.map DirEntry.name = ((before ++ [(key, row)]).map fun p => p.1.2).drop
          (cookie.toNat - 2) →
        (∀ e ∈ es.getLast?, e.cookie.toNat = before.length + 3) → _ := fun es hes hlast' =>
      ih (before ++ [(key, row)]) es (by simpa using hlen) hes (by simpa using hlast')
    simp only [append_assoc, singleton_append, length_append, length_singleton]
      at hnext
    unfold Decorator.pageOf
    simp only [le_iff_toNat_le, hcookie]
    split
    · -- a child up to the cookie is passed over; nothing is in the page yet
      have hentries : entries = [] := by
        rw [drop_eq_nil_of_le (by rw [length_map]; omega)] at hnames
        exact map_eq_nil_iff.mp hnames
      subst hentries
      refine hnext [] ?_ (by simp)
      rw [drop_eq_nil_of_le (by simp; omega)]
      rfl
    · split
      · exact ⟨before, prefix_append .., hnames, hlast, nofun⟩
      · refine hnext _ ?_ ?_
        · rw [map_append, hnames, map_append, drop_append_of_le_length]
          · rfl
          · rw [length_map]
            omega
        · intro e he
          simp only [getLast?_append, getLast?_singleton] at he
          cases he
          exact hcookie

theorem readdir_side (hdir : isSideNode dir) (cookie : UInt64) (maxEntries : Nat)
    (wantAttrs : Bool) : d.readdir dir cookie maxEntries wantAttrs store = .done (.ok (.ok
      (d.pageOf cookie maxEntries wantAttrs 0 [] (children d dir store))), store) := by
  rw [Decorator.readdir, if_pos hdir]
  rfl

/-- What the scan has is what its cookie says, and in the end all names of one moment. -/
structure Sound (d : Decorator) (dir : NodeKey) (s : SideScan) : Prop where
  cookie : s.cookie.toNat - 2 = s.got.length
  now : s.store ∈ s.moments
  held : ∀ m ∈ s.moments, Held m
  whole : s.ended → ∃ m ∈ s.moments, s.got = names d dir m

theorem Sound.step (hdir : isSideNode dir) {a : Move} (h : Sound d dir s)
    (hok : Aligned d dir s a) (hstep : s.step d dir a = some s') : Sound d dir s' := by
  cases a with
  | change store =>
    cases hstep
    refine { h with now := .head _, held := forall_mem_cons.mpr ⟨hok, h.held⟩, whole := ?_ }
    intro hend
    obtain ⟨m, hm, heq⟩ := h.whole hend
    exact ⟨m, .tail _ hm, heq⟩
  | page maxEntries wantAttrs =>
    obtain ⟨-, hstep⟩ := Option.ite_none_left_eq_some.mp hstep
    rw [readdir_side hdir] at hstep
    cases hstep
    have hlen : (children d dir s.store).length < 9223372036854775808 := by
      have hle : (children d dir s.store).length ≤ s.store.rows.length := by
        rw [children, length_mergeSort, ← (d.order_perm s.store.rows).length_eq]
        exact length_filter_le ..
      exact Nat.lt_of_le_of_lt hle (h.held _ h.now).2
    have hpage := pageOf_names d s.cookie maxEntries wantAttrs (children d dir s.store) [] [] hlen
      (by simp) (by simp)
    generalize d.pageOf s.cookie maxEntries wantAttrs 0 [] (children d dir s.store) = page at hpage ⊢
    obtain ⟨seen, hseen, hnames, hlast, heof⟩ := hpage
    rw [h.cookie] at hnames
    refine ⟨?_, h.now, h.held, fun hend => ⟨_, h.now, ?_⟩⟩
    · have hlength := congrArg length hnames
      simp only [length_map, length_drop] at hlength
      cases hentry : page.entries.getLast? with
      | none => simpa [getLast?_eq_none_iff.mp hentry] using h.cookie
      | some e =>
        have hpos := length_pos_of_mem (mem_of_getLast? hentry)
        have hcookie := hlast e hentry
        simp only [Option.map_some, Option.getD_some, length_append, length_map]
        omega
    · rw [hnames, heof hend]
      exact (prefix_iff_eq_append.mp hok)

/-- A child that is there all the time is returned once. -/
theorem children_once (hdir : isSideNode dir) (h : Held store)
    (hrun : Runs.Reaches (step d dir) (Aligned d dir) (start store) s) (hend : s.ended)
    {name : List UInt8} (hthere : ∀ m ∈ s.moments, (m.rows.get (dir, name)).isSome) :
    s.got.count name = 1 := by
  have hstart : Sound d dir (start store) := ⟨rfl, .head _, by simpa [start] using h, nofun⟩
  have hsound := hrun.inv hstart fun _ _ _ hs hok hstep => hs.step hdir hok hstep
  obtain ⟨m, hm, heq⟩ := hsound.whole hend
  rw [heq]
  exact count_eq_one_of_mem (names_nodup (hsound.held m hm)) (mem_names (hthere m hm))

theorem children_of_sorted {l : List (RowKey × Row)}
    (hl : (d.order store.rows).filter (fun p => p.1.1 = dir) = l)
    (hsorted : (l.map fun p => p.1.2).Pairwise (· ≤ ·)) : children d dir store = l := by
  rw [children, hl, mergeSort_of_pairwise]
  simpa [pairwise_map] using hsorted

theorem step_page {l : List (RowKey × Row)} (hdir : isSideNode dir) (maxEntries : Nat)
    (wantAttrs : Bool) (hl : children d dir s.store = l) (hend : s.ended = false) :
    s.step d dir (.page maxEntries wantAttrs) =
      let page := d.pageOf s.cookie maxEntries wantAttrs 0 [] l
      some { s with
        cookie := (page.entries.getLast?.map DirEntry.cookie).getD s.cookie
        got := s.got ++ page.entries.map DirEntry.name
        ended := page.eof } := by
  rw [step, if_neg (by simp [hend]), readdir_side hdir, hl]

def three : SideStore :=
  let rows := [97, 98, 99].map fun b => ((⟨SIDE_INO_BIT, 1⟩, [b]), ⟨0, 0, 0, 1, []⟩)
  ⟨rows, rows.map fun p => (sumDigest.synthKey p.1.1 p.1.2, p.1), false⟩

/-- After a page with `a`, the file is removed; the next page begins behind `b`. -/
theorem child_skipped :
    ∃ s, Runs.Reaches (step sumDigest ⟨SIDE_INO_BIT, 1⟩) (fun _ _ => True) (start three) s ∧
      s.ended ∧ (∀ m ∈ s.moments, (m.rows.get (⟨SIDE_INO_BIT, 1⟩, [98])).isSome) ∧
      s.got.count [98] = 0 := by
  let removed := sumDigest.drop three (⟨SIDE_INO_BIT, 1⟩, [97])
  refine ⟨_, .tail (.tail (.tail .refl trivial
    (step_page (by decide) 1 false (children_of_sorted rfl (by decide)) rfl)) trivial
    (a := .change removed) rfl) trivial
    (step_page (by decide) 9 false (children_of_sorted rfl (by decide)) rfl), ?_⟩
  decide +kernel

theorem children_once_three :
    ∃ s, Runs.Reaches (step sumDigest ⟨SIDE_INO_BIT, 1⟩) (Aligned sumDigest ⟨SIDE_INO_BIT, 1⟩)
      (start three) s ∧ s.got = [[97], [98], [99]] ∧ s.got.count [98] = 1 := by
  have hrun : Runs.Reaches (step sumDigest ⟨SIDE_INO_BIT, 1⟩) (Aligned sumDigest ⟨SIDE_INO_BIT, 1⟩)
      (start three) ⟨three, 5, [[97], [98], [99]], true, [three]⟩ :=
    .tail (a := .page 9 false) .refl nil_prefix
      (step_page (by decide) 9 false (children_of_sorted rfl (by decide)) rfl)
  exact ⟨_, hrun, rfl, children_once (by decide) ⟨by decide, by decide⟩ hrun rfl
    (by decide +kernel)⟩

end SideScan

end Mist.Sidestore
