import Mathlib.Data.List.Chain
import Mathlib.Data.List.Nodup

/-! Paging through a numbered listing that changes between the pages, with a cursor. -/

namespace Paging

open List Option

variable {α κ : Type}

/-- The items at one moment in the order of their numbers, and the next number to give. -/
structure Listing (num : α → Nat) where
  items : List α
  next : Nat
  sorted : (items.map num).Pairwise (· < ·)
  below : ∀ a ∈ items, num a < next

variable {num : α → Nat} {key : α → κ}

namespace Listing

def after (l : Listing num) (cursor : Nat) : List α := l.items.filter fun a => cursor < num a

def Has (key : α → κ) (l : Listing num) (n : Nat) (k : κ) : Prop :=
  ∃ a ∈ l.items, num a = n ∧ key a = k

variable {l : Listing num} {a b : α} {cursor max : Nat}

theorem mem_after : a ∈ l.after cursor ↔ a ∈ l.items ∧ cursor < num a := by
  rw [after, mem_filter, decide_eq_true_eq]

theorem sorted_after (l : Listing num) (cursor : Nat) :
    ((l.after cursor).map num).Pairwise (· < ·) :=
  l.sorted.sublist (filter_sublist.map _)

theorem num_inj (ha : a ∈ l.items) (hb : b ∈ l.items) (h : num a = num b) : a = b :=
  inj_on_of_nodup_map (l.sorted.imp Nat.ne_of_lt) ha hb h

def reach (l : Listing num) (cursor max : Nat) : Nat :=
  (((l.after cursor).take max).getLast?.map num).getD cursor

theorem le_reach (l : Listing num) (cursor max : Nat) : cursor ≤ l.reach cursor max := by
  rw [reach]
  cases h : ((l.after cursor).take max).getLast? with
  | none => exact Nat.le_refl _
  | some a => exact Nat.le_of_lt (mem_after.mp (mem_of_mem_take (mem_of_getLast? h))).2

theorem mem_page : a ∈ (l.after cursor).take max ↔
    a ∈ l.items ∧ cursor < num a ∧ num a ≤ l.reach cursor max := by
  have hsorted := l.sorted_after cursor
  rw [← take_append_drop max (l.after cursor), map_append, pairwise_append] at hsorted
  obtain ⟨hpage, -, hrest⟩ := hsorted
  cases hlast : ((l.after cursor).take max).getLast? with
  | none =>
    rw [getLast?_eq_none_iff] at hlast
    rw [reach, hlast]
    constructor
    · exact fun h => absurd h not_mem_nil
    · rintro ⟨-, hlt, hle⟩
      exact absurd hle (Nat.not_le.mpr hlt)
  | some z =>
    have hreach : l.reach cursor max = num z := by rw [reach, hlast]; rfl
    obtain ⟨init, hinit⟩ := getLast?_eq_some_iff.mp hlast
    rw [hreach]
    constructor
    · intro h
      obtain ⟨hmem, hlt⟩ := mem_after.mp (mem_of_mem_take h)
      refine ⟨hmem, hlt, ?_⟩
      rw [hinit] at h hpage
      rw [map_append, pairwise_append] at hpage
      rcases mem_append.mp h with h | h
      · exact Nat.le_of_lt (hpage.2.2 _ (mem_map_of_mem h) _ (by simp))
      · rw [mem_singleton.mp h]
    · rintro ⟨hmem, hlt, hle⟩
      have hafter : a ∈ l.after cursor := mem_after.mpr ⟨hmem, hlt⟩
      rw [← take_append_drop max (l.after cursor)] at hafter
      rcases mem_append.mp hafter with h | h
      · exact h
      · have hz := hrest _ (mem_map_of_mem (mem_of_getLast? hlast)) _
          (mem_map_of_mem h)
        omega

theorem after_reach_eq_nil : l.after (l.reach cursor max) = [] ↔ (l.after cursor).length ≤ max := by
  constructor
  · intro h
    by_contra hlong
    obtain ⟨a, ha⟩ := exists_mem_of_length_pos
      (l := (l.after cursor).drop max) (by rw [length_drop]; omega)
    have hafter := mem_after.mp (mem_of_mem_drop ha)
    have hnone : a ∉ l.after (l.reach cursor max) := by rw [h]; exact not_mem_nil
    have hpage : a ∈ (l.after cursor).take max := mem_page.mpr ⟨hafter.1, hafter.2, by
      rw [mem_after, not_and, Nat.not_lt] at hnone
      exact hnone hafter.1⟩
    have hnodup : (l.after cursor).Nodup :=
      Nodup.of_map _ ((l.sorted_after cursor).imp Nat.ne_of_lt)
    rw [← take_append_drop max (l.after cursor)] at hnodup
    exact disjoint_of_nodup_append hnodup hpage ha
  · intro h
    rw [eq_nil_iff_forall_not_mem]
    intro a ha
    obtain ⟨hmem, hlt⟩ := mem_after.mp ha
    have hpage : a ∈ (l.after cursor).take max := by
      rw [take_of_length_le h, mem_after]
      exact ⟨hmem, Nat.lt_of_le_of_lt (l.le_reach cursor max) hlt⟩
    exact absurd (mem_page.mp hpage).2.2 (by omega)

def upto (l : Listing num) (cursor : Nat) : List α := l.items.filter fun a => num a ≤ cursor

theorem mem_upto : a ∈ l.upto cursor ↔ a ∈ l.items ∧ num a ≤ cursor := by
  rw [upto, mem_filter, decide_eq_true_eq]

theorem nodup_items (l : Listing num) : l.items.Nodup :=
  Nodup.of_map _ (l.sorted.imp Nat.ne_of_lt)

theorem upto_reach (l : Listing num) (cursor max : Nat) :
    (l.upto (l.reach cursor max)).Perm (l.upto cursor ++ (l.after cursor).take max) := by
  have hupto : ∀ c, (l.upto c).Nodup := fun c => l.nodup_items.filter _
  have hpage : ((l.after cursor).take max).Nodup :=
    (l.nodup_items.filter _).sublist (take_sublist _ _)
  refine (perm_ext_iff_of_nodup (hupto _) ?_).mpr fun a => ?_
  · refine (hupto _).append hpage fun a ha hb => ?_
    exact absurd (mem_upto.mp ha).2 (Nat.not_le.mpr (mem_page.mp hb).2.1)
  rw [mem_append, mem_upto, mem_upto, mem_page]
  constructor
  · rintro ⟨ha, hle⟩
    by_cases hold : num a ≤ cursor
    · exact .inl ⟨ha, hold⟩
    · exact .inr ⟨ha, Nat.not_le.mp hold, hle⟩
  · rintro (⟨ha, hle⟩ | ⟨ha, -, hle⟩)
    · exact ⟨ha, hle.trans (l.le_reach cursor max)⟩
    · exact ⟨ha, hle⟩

theorem upto_eq_items (h : l.after cursor = []) : l.upto cursor = l.items := by
  refine filter_eq_self.mpr fun a ha => decide_eq_true ?_
  by_contra hgt
  have : a ∈ l.after cursor := mem_after.mpr ⟨ha, Nat.not_le.mp hgt⟩
  rw [h] at this
  cases this

end Listing

/-- The listing `l'` comes right after `l`: an item with an old number is an old item, and a key that
was there keeps its number. -/
structure Follows (key : α → κ) (l l' : Listing num) : Prop where
  next : l.next ≤ l'.next
  old : ∀ {n k}, l'.Has key n k → n < l.next → l.Has key n k
  keeps : ∀ {n m k}, l'.Has key n k → l.Has key m k → n = m

/-- The listing `l'` comes some time after `l`. -/
structure Later (key : α → κ) (l l' : Listing num) : Prop where
  next : l.next ≤ l'.next
  old : ∀ {n k}, l'.Has key n k → n < l.next → l.Has key n k

theorem Follows.later {l l' : Listing num} (h : Follows key l l') : Later key l l' := { h with }

theorem Later.refl (l : Listing num) : Later key l l := ⟨Nat.le_refl _, fun h _ => h⟩

theorem Later.trans {l l' l'' : Listing num} (h : Later key l l') (h' : Later key l' l'') :
    Later key l l'' where
  next := h.next.trans h'.next
  old ha hn := h.old (h'.old ha (hn.trans_le h.next)) hn

def Moments (key : α → κ) (ls : List (Listing num)) : Prop :=
  ls.IsChain fun l' l => Follows key l l'

theorem Moments.later {ls : List (Listing num)} (h : Moments key ls) {i j : Nat} (hij : i ≤ j)
    {l' l : Listing num} (hi : ls[i]? = some l') (hj : ls[j]? = some l) : Later key l l' := by
  have : Trans (fun l' l : Listing num => Later key l l') (fun l' l => Later key l l')
      (fun l' l => Later key l l') := ⟨fun h h' => h'.trans h⟩
  have hpairs : ls.Pairwise fun l' l => Later key l l' :=
    isChain_iff_pairwise.mp (h.imp fun _ _ => Follows.later)
  rcases Nat.eq_or_lt_of_le hij with rfl | hlt
  · obtain rfl : l' = l := mem_unique hi hj
    exact .refl l'
  · obtain ⟨hi', rfl⟩ := List.getElem?_eq_some_iff.mp hi
    obtain ⟨hj', rfl⟩ := List.getElem?_eq_some_iff.mp hj
    exact pairwise_iff_getElem.mp hpairs i j hi' hj' hlt

theorem Moments.number {ls : List (Listing num)} (h : Moments key ls) (hne : ls ≠ []) {k : κ}
    (hk : ∀ l ∈ ls, ∃ n, l.Has key n k) : ∃ n, ∀ l ∈ ls, l.Has key n k := by
  induction ls with
  | nil => exact absurd rfl hne
  | cons l ls ih =>
    cases ls with
    | nil =>
      obtain ⟨n, hn⟩ := hk l mem_cons_self
      exact ⟨n, fun l' hl' => mem_singleton.mp hl' ▸ hn⟩
    | cons l₀ ls =>
      obtain ⟨hfollows, hrest⟩ := isChain_cons_cons.mp h
      obtain ⟨n, hn⟩ := ih hrest (cons_ne_nil _ _) fun l' hl' => hk l' (.tail _ hl')
      obtain ⟨m, hm⟩ := hk l mem_cons_self
      refine ⟨n, fun l' hl' => ?_⟩
      rcases mem_cons.mp hl' with rfl | hl'
      · exact hfollows.keeps hm (hn l₀ (.head _)) ▸ hm
      · exact hn l' hl'

/-- No number is given twice: an item that is there at two moments under one number is one item, and
it was there in between. -/
def GivenOnce (num : α → Nat) (key : α → κ) (moments : List (List α)) : Prop :=
  ∀ i j k : Nat, i ≤ j → j ≤ k → ∀ newer ∈ moments[i]?, ∀ between ∈ moments[j]?,
    ∀ older ∈ moments[k]?, ∀ a ∈ newer, ∀ b ∈ older, num a = num b →
      key a = key b ∧ ∃ c ∈ between, num c = num a ∧ key c = key a

theorem Moments.givenOnce {ls : List (Listing num)} (h : Moments key ls) :
    GivenOnce num key (ls.map Listing.items) := by
  intro i j k hij hjk newer hnewer between hbetween older holder a ha b hb hab
  rw [getElem?_map] at hnewer hbetween holder
  obtain ⟨l₁, hi, rfl⟩ := map_eq_some_iff.mp hnewer
  obtain ⟨l₂, hj, rfl⟩ := map_eq_some_iff.mp hbetween
  obtain ⟨l₃, hk, rfl⟩ := map_eq_some_iff.mp holder
  have hhas : l₁.Has key (num a) (key a) := ⟨a, ha, rfl, rfl⟩
  have hlt : num a < l₃.next := hab ▸ l₃.below b hb
  constructor
  · obtain ⟨b', hb', hnum, hkey⟩ := (h.later (hij.trans hjk) hi hk).old hhas hlt
    rw [← hkey, l₃.num_inj hb' hb (hnum.trans hab)]
  · exact (h.later hij hi hj).old hhas (hlt.trans_le (h.later hjk hj hk).next)

/-- A reader with the moments it met, its cursor, what it was given, and whether a page was the last. -/
structure Scan (num : α → Nat) where
  moments : List (Listing num)
  cursor : Nat
  listed : List α
  ended : Bool

namespace Scan

def start (l : Listing num) : Scan num := ⟨[l], 0, [], false⟩

def change (s : Scan num) (l : Listing num) : Scan num := { s with moments := l :: s.moments }

def page (s : Scan num) (l : Listing num) (max : Nat) : Scan num where
  moments := s.moments
  cursor := l.reach s.cursor max
  listed := s.listed ++ (l.after s.cursor).take max
  ended := (l.after s.cursor).length ≤ max

structure Sound (key : α → κ) (s : Scan num) : Prop where
  moments : Moments key s.moments
  nonempty : s.moments ≠ []
  sorted : (s.listed.map num).Pairwise (· < ·)
  reached : ∀ a ∈ s.listed, num a ≤ s.cursor
  seen : ∀ a ∈ s.listed, ∃ l ∈ s.moments, a ∈ l.items
  caught : ∀ n k, (∀ l ∈ s.moments, l.Has key n k) → n ≤ s.cursor →
    ∃ a ∈ s.listed, num a = n ∧ key a = k
  last : s.ended → ∀ n k, (∀ l ∈ s.moments, l.Has key n k) → n ≤ s.cursor

variable {s : Scan num} {l l' : Listing num}

theorem Sound.start (hpos : ∀ a ∈ l.items, 0 < num a) : Sound key (start l) where
  moments := isChain_singleton _
  nonempty := cons_ne_nil _ _
  sorted := Pairwise.nil
  reached _ h := absurd h not_mem_nil
  seen _ h := absurd h not_mem_nil
  caught n k h hn := by
    obtain ⟨a, ha, rfl, -⟩ := h l mem_cons_self
    exact absurd (hpos a ha) (Nat.not_lt.mpr hn)
  last h := by cases h

theorem Sound.change (h : Sound key s) (hl : s.moments.head? = some l) (hnext : Follows key l l') :
    Sound key (s.change l') where
  moments := by
    refine isChain_cons.mpr ⟨fun l₀ hl₀ => ?_, h.moments⟩
    obtain rfl : l = l₀ := mem_unique hl hl₀
    exact hnext
  nonempty := cons_ne_nil _ _
  sorted := h.sorted
  reached := h.reached
  seen a ha := by
    obtain ⟨l₀, hl₀, hmem⟩ := h.seen a ha
    exact ⟨l₀, .tail _ hl₀, hmem⟩
  caught n k hall := h.caught n k fun l₀ hl₀ => hall l₀ (.tail _ hl₀)
  last hend n k hall := h.last hend n k fun l₀ hl₀ => hall l₀ (.tail _ hl₀)

theorem Sound.page (h : Sound key s) (hl : s.moments.head? = some l) (max : Nat) :
    Sound key (s.page l max) where
  moments := h.moments
  nonempty := h.nonempty
  sorted := by
    show ((s.listed ++ (l.after s.cursor).take max).map num).Pairwise _
    rw [map_append, pairwise_append]
    refine ⟨h.sorted, (l.sorted_after _).sublist ((take_sublist _ _).map _), ?_⟩
    intro n hn m hm
    obtain ⟨a, ha, rfl⟩ := mem_map.mp hn
    obtain ⟨b, hb, rfl⟩ := mem_map.mp hm
    exact (h.reached a ha).trans_lt (Listing.mem_page.mp hb).2.1
  reached a ha := by
    rcases mem_append.mp ha with ha | ha
    · exact (h.reached a ha).trans (l.le_reach _ _)
    · exact (Listing.mem_page.mp ha).2.2
  seen a ha := by
    rcases mem_append.mp ha with ha | ha
    · exact h.seen a ha
    · exact ⟨l, mem_of_head? hl, (Listing.mem_page.mp ha).1⟩
  caught n k hall hn := by
    by_cases hold : n ≤ s.cursor
    · obtain ⟨a, ha, hak⟩ := h.caught n k hall hold
      exact ⟨a, mem_append_left _ ha, hak⟩
    · obtain ⟨a, ha, rfl, hk⟩ := hall l (mem_of_head? hl)
      refine ⟨a, mem_append_right _ (Listing.mem_page.mpr ⟨ha, Nat.not_le.mp hold, hn⟩), rfl, hk⟩
  last hend n k hall := by
    obtain ⟨a, ha, rfl, -⟩ := hall l (mem_of_head? hl)
    have hnone := Listing.after_reach_eq_nil.mpr (of_decide_eq_true hend)
    by_contra hgt
    have : a ∈ l.after (l.reach s.cursor max) := Listing.mem_after.mpr ⟨ha, Nat.not_le.mp hgt⟩
    rw [hnone] at this
    cases this

theorem Sound.listed_once (h : Sound key s) (hend : s.ended) {p : α → Bool} {n : Nat} {k : κ}
    (hall : ∀ l ∈ s.moments, l.Has key n k) (hp : ∀ l ∈ s.moments, ∀ a ∈ l.items, p a ↔ num a = n) :
    ∃ a, s.listed.filter p = [a] ∧ key a = k := by
  have hpl : ∀ a ∈ s.listed, p a ↔ num a = n := by
    intro a ha
    obtain ⟨l, hl, hmem⟩ := h.seen a ha
    exact hp l hl a hmem
  obtain ⟨a, ha, hnum, hkey⟩ := h.caught n k hall (h.last hend n k hall)
  have hmem : a ∈ s.listed.filter p := mem_filter.mpr ⟨ha, (hpl a ha).mpr hnum⟩
  have hsorted : ((s.listed.filter p).map num).Pairwise (· < ·) :=
    h.sorted.sublist (filter_sublist.map _)
  have hnums : ∀ b ∈ s.listed.filter p, num b = n := fun b hb =>
    (hpl b (mem_of_mem_filter hb)).mp (mem_filter.mp hb).2
  cases hlist : s.listed.filter p with
  | nil =>
    rw [hlist] at hmem
    cases hmem
  | cons b rest =>
    rw [hlist] at hmem hsorted hnums
    cases rest with
    | nil => exact ⟨b, rfl, mem_singleton.mp hmem ▸ hkey⟩
    | cons c rest =>
      have hlt := (pairwise_cons.mp hsorted).1 (num c) (by simp)
      rw [hnums b (by simp), hnums c (by simp)] at hlt
      exact absurd hlt (by omega)

end Scan

end Paging
