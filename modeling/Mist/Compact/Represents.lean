import Mist.Compact.Table
import Mist.Runs
import Mathlib.Algebra.Order.Ring.Nat
import Mathlib.Algebra.Order.BigOperators.Group.List

/-! The compact layout of a directory's entries represents the list of live entries. -/

namespace Mist

open List DirState Function Runs Bool

def CEnt.image (e : CEnt) : Nat × List UInt8 × NodeKey × Kind := (e.cookie, e.name.bytes, e.node, e.kind)

theorem Name.bytes_injective {x y : Name} (h : x.bytes = y.bytes) : x = y := by
  cases x
  cases y
  cases h
  rfl

theorem Name.bytes_pos (x : Name) : 0 < x.bytes.length := by
  have h := x.valid
  by_contra hzero
  have hnil : x.bytes = [] := length_eq_zero_iff.mp (by omega)
  rw [hnil] at h
  cases h

theorem Name.bytes_small (x : Name) : x.bytes.length < 65536 := by
  have h := x.valid
  unfold Name.check at h
  split at h
  · cases h
  rename_i hlen
  have hle : ¬ maxName < x.bytes.length := fun hlt => hlen (by simp [hlt])
  rw [maxName] at hle
  omega

namespace Compact

section

variable {arena more : List UInt8} {e : CEnt}

def text (arena : List UInt8) (e : CEnt) : List UInt8 := (arena.drop e.nameOff).take e.nameLen

def image (arena : List UInt8) (e : CEnt) : Nat × List UInt8 × NodeKey × Kind :=
  (e.cookie, text arena e, e.node, e.kind)

section

variable (h : e.nameOff + e.nameLen ≤ arena.length)
include h

theorem slice_eq : slice arena e = .ok (text arena e) := if_pos h

theorem length_text : (text arena e).length = e.nameLen := by
  simp only [text, length_take, length_drop]
  omega

theorem text_append : text (arena ++ more) e = text arena e := by
  rw [text, drop_append_of_le_length (by omega), take_append_of_le_length]
  · rfl
  · rw [length_drop]
    omega

end

theorem entAt_eq {ents : List CEnt} {i : Nat} (h : ents[i]? = some e) : entAt ents i = .ok e := by
  rw [entAt, h]

end

/-- The entries of a layout lie in its arena, in cookie order, with room to number them. -/
structure Laid (d : DirState) : Prop where
  range : ∀ e ∈ d.ents, e.nameOff + e.nameLen ≤ d.arena.length
  named : ∀ e ∈ d.ents, 0 < e.nameLen
  stored : (d.ents.map CEnt.nameLen).sum ≤ d.arena.length
  bounded : d.arena.length < u32Size
  sorted : (d.ents.map CEnt.cookie).Pairwise (· < ·)
  below : ∀ e ∈ d.ents, e.cookie < d.nextCookie

/-- The layout `d` stands for the list of live entries `t`. -/
structure Represents (hash : List UInt8 → UInt64) (d : DirState) (t : Mist.DirState) : Prop
    extends Laid d where
  image : d.live.map (image d.arena) = t.ents.map Mist.CEnt.image
  dead : d.dead + d.live.length = d.ents.length
  index : ∀ h i, (h, i) ∈ d.byName ↔
    ∃ e, d.ents[i]? = some e ∧ e.dead = false ∧ h = hash (text d.arena e)
  once : d.byName.Nodup
  nextCookie : d.nextCookie = t.nextCookie
  dirgen : d.dirgen = t.dirgen
  complete : d.complete = t.complete

variable {hash : List UInt8 → UInt64} {d : DirState} {t : Mist.DirState}

theorem Represents.new : Represents hash .new .new where
  image := rfl
  range _ h := by cases h
  named _ h := by cases h
  stored := Nat.le_refl _
  bounded := by decide
  dead := rfl
  sorted := Pairwise.nil
  below _ h := by cases h
  index h i := by simp [DirState.new]
  once := nodup_nil
  nextCookie := rfl
  dirgen := rfl
  complete := rfl

namespace Represents

variable {e : CEnt}

theorem mem_live : e ∈ d.live ↔ e ∈ d.ents ∧ e.dead = false := by
  simp [DirState.live]

theorem mem_live_of_getElem? {i : Nat} (hi : d.ents[i]? = some e) (he : e.dead = false) :
    e ∈ d.live :=
  mem_live.mpr ⟨mem_of_getElem? hi, he⟩

theorem of_live (h : Represents hash d t) (he : e ∈ d.live) :
    ∃ a ∈ t.ents, a.image = Compact.image d.arena e := by
  have : Compact.image d.arena e ∈ t.ents.map Mist.CEnt.image := by
    rw [← h.image]
    exact mem_map_of_mem he
  exact mem_map.mp this

theorem to_live (h : Represents hash d t) {a : Mist.CEnt} (ha : a ∈ t.ents) :
    ∃ e ∈ d.live, Compact.image d.arena e = a.image := by
  have : a.image ∈ d.live.map (Compact.image d.arena) := by
    rw [h.image]
    exact mem_map_of_mem ha
  exact mem_map.mp this

end Represents

theorem HashTable.find_eq {t : HashTable} {h : UInt64} {eq : Nat → Except Stop Bool} {g : Nat → Bool}
    (hg : ∀ s ∈ t, eq s.2 = .ok (g s.2)) :
    t.find h eq = .ok ((t.find? fun s => g s.2 && s.1 = h).map Prod.snd) := by
  induction t with
  | nil => rfl
  | cons s rest ih =>
    rw [HashTable.find, hg s mem_cons_self, ih fun s' hs' => hg s' (.tail _ hs'), find?_cons]
    show Except.ok (if (g s.2 && decide (s.1 = h)) = true then some s.2 else _) = _
    cases g s.2 && decide (s.1 = h) <;> rfl

namespace Represents

variable (h : Represents hash d t)
include h

theorem findIdx_cases (b : List UInt8) :
    (d.findIdx hash b = .ok none ∧ ∀ e ∈ d.live, text d.arena e ≠ b) ∨
      ∃ i e, d.findIdx hash b = .ok (some i) ∧ d.ents[i]? = some e ∧ e.dead = false ∧
        text d.arena e = b := by
  have hfind : d.findIdx hash b = .ok ((d.byName.find? fun s =>
      (d.ents[s.2]?.any fun e => text d.arena e = b) && s.1 = hash b).map Prod.snd) := by
    refine HashTable.find_eq (g := fun i => d.ents[i]?.any fun e => text d.arena e = b)
      fun s hs => ?_
    obtain ⟨e, hi, hlive, -⟩ := (h.index s.1 s.2).mp hs
    rw [entAt_eq hi, hi]
    show (if e.dead = true then _ else _) = _
    rw [hlive, DirState.nameOf, slice_eq (h.range e (mem_of_getElem? hi))]
    rfl
  rw [hfind]
  cases hf : d.byName.find? fun s =>
      (d.ents[s.2]?.any fun e => text d.arena e = b) && s.1 = hash b with
  | none =>
    refine .inl ⟨rfl, fun e he htext => ?_⟩
    obtain ⟨hmem, hlive⟩ := mem_live.mp he
    obtain ⟨i, hi⟩ := mem_iff_getElem?.mp hmem
    have hin := (h.index (hash b) i).mpr ⟨e, hi, hlive, by rw [htext]⟩
    have := find?_eq_none.mp hf _ hin
    simp [hi, htext] at this
  | some s =>
    have hs := find?_some hf
    obtain ⟨e, hi, hlive, -⟩ := (h.index s.1 s.2).mp (mem_of_find?_eq_some hf)
    simp only [hi, Option.any_some, and_eq_true, decide_eq_true_eq] at hs
    exact .inr ⟨s.2, e, rfl, hi, hlive, hs.1⟩

theorem findEnt_none {x : Name}
    (hnone : ∀ e ∈ d.live, text d.arena e ≠ x.bytes) : t.findEnt x = none := by
  rw [findEnt_eq_none]
  intro hmem
  obtain ⟨a, ha, rfl⟩ := mem_map.mp hmem
  obtain ⟨e, he, himg⟩ := h.to_live ha
  simp only [Mist.CEnt.image, Compact.image, Prod.mk.injEq] at himg
  exact hnone e he himg.2.1

theorem findEnt_some {x : Name} {e : CEnt} (he : e ∈ d.live) (htext : text d.arena e = x.bytes) :
    ∃ a, t.findEnt x = some a ∧ a.cookie = e.cookie ∧ a.node = e.node ∧ a.kind = e.kind := by
  obtain ⟨a, ha, himg⟩ := h.of_live he
  simp only [Mist.CEnt.image, Compact.image, Prod.mk.injEq] at himg
  refine ⟨a, findEnt_eq_some.mpr ⟨ha, ?_⟩, himg.1, himg.2.2.1, himg.2.2.2⟩
  exact Name.bytes_injective (himg.2.1.trans htext)

theorem find_eq (x : Name) : d.find hash x.bytes = .ok (t.find x) := by
  rcases h.findIdx_cases x.bytes with ⟨hidx, hnone⟩ | ⟨i, e, hidx, hi, hlive, htext⟩
  · rw [DirState.find, hidx, Mist.DirState.find, h.findEnt_none hnone]
    rfl
  obtain ⟨a, ha, -, hnode, hkind⟩ := h.findEnt_some (mem_live_of_getElem? hi hlive) htext
  rw [DirState.find, hidx, Mist.DirState.find, ha, Option.map_some, hnode, hkind]
  show entAt d.ents i >>= _ = _
  rw [entAt_eq hi]
  rfl

end Represents

def change (e : CEnt) (g : CEnt → CEnt) (a : CEnt) : CEnt := if a.cookie = e.cookie then g a else a

variable {e : CEnt} {g : CEnt → CEnt}

theorem set_eq_map {l : List CEnt} {i : Nat} (g : CEnt → CEnt) (hi : l[i]? = some e)
    (hsorted : (l.map CEnt.cookie).Pairwise (· < ·)) : l.set i (g e) = l.map (change e g) := by
  induction l generalizing i with
  | nil => simp at hi
  | cons a l ih =>
    obtain ⟨hhead, htail⟩ := pairwise_cons.mp hsorted
    cases i with
    | zero =>
      obtain rfl : a = e := by simpa using hi
      have hrest : l.map (change a g) = l := by
        refine (map_congr_left fun b hb => ?_).trans (map_id _)
        have := hhead b.cookie (mem_map_of_mem hb)
        exact if_neg (by omega)
      rw [set_cons_zero, map_cons, hrest, change, if_pos rfl]
    | succ i =>
      have hi' : l[i]? = some e := by simpa using hi
      have := hhead e.cookie (mem_map_of_mem (mem_of_getElem? hi'))
      rw [set_cons_succ, map_cons, ih hi' htail, change, if_neg (by omega)]

theorem map_change {β : Type} {f : CEnt → β} (hf : ∀ a, f (g a) = f a)
    (l : List CEnt) : (l.map (change e g)).map f = l.map f := by
  rw [map_map]
  refine map_congr_left fun a _ => ?_
  rw [comp_apply, change]
  split
  · exact hf a
  · rfl

theorem forall_change {P : CEnt → Prop} {l : List CEnt}
    (hg : ∀ a, P a → P (g a)) (h : ∀ a ∈ l, P a) : ∀ a ∈ l.map (change e g), P a := by
  intro b hb
  obtain ⟨a, ha, rfl⟩ := mem_map.mp hb
  rw [change]
  split
  · exact hg a (h a ha)
  · exact h a ha

namespace Represents

theorem cookie_iff_name (t : Mist.DirState) {a b : Mist.CEnt} (ha : a ∈ t.ents) (hb : b ∈ t.ents) :
    b.cookie = a.cookie ↔ b.name = a.name := by
  constructor
  · intro hc
    have hnodup : (t.ents.map Mist.CEnt.cookie).Nodup := t.sorted.imp fun h => Nat.ne_of_lt h
    rw [inj_on_of_nodup_map hnodup hb ha hc]
  · intro hn
    rw [t.ent_unique hb ha hn]

theorem image_dead (h : Represents hash d t) {x : Name} {e : CEnt} (he : e ∈ d.live)
    (htext : text d.arena e = x.bytes) :
    ((d.ents.map (change e fun a => { a with dead := true })).filter fun a => !a.dead).map
      (Compact.image d.arena) = (t.kill x).ents.map Mist.CEnt.image := by
  obtain ⟨a₀, hfind, hcookie, -⟩ := h.findEnt_some he htext
  obtain ⟨ha₀, hname⟩ := findEnt_eq_some.mp hfind
  -- both sides are the images whose cookie is not that of the entry
  let other : Nat × List UInt8 × NodeKey × Kind → Bool := fun p => p.1 ≠ e.cookie
  have hlive : (d.ents.map (change e fun a => { a with dead := true })).filter (fun a => !a.dead) =
      d.live.filter (other ∘ Compact.image d.arena) := by
    rw [filter_map, DirState.live, filter_filter]
    have hpred : ∀ a : CEnt, ((fun a => !a.dead) ∘ change e fun a => { a with dead := true }) a =
        ((other ∘ Compact.image d.arena) a && !a.dead) := by
      intro a
      simp only [comp_apply, change, other, Compact.image]
      by_cases hc : a.cookie = e.cookie <;> simp [hc]
    rw [filter_congr fun a _ => hpred a]
    refine (map_congr_left fun a ha => ?_).trans (map_id _)
    have hother := (mem_filter.mp ha).2
    simp only [comp_apply, other, Compact.image, and_eq_true] at hother
    exact if_neg (of_decide_eq_true hother.1)
  have hlist : t.ents.filter (other ∘ Mist.CEnt.image) = t.ents.filter fun a => a.name ≠ x := by
    refine filter_congr fun a ha => ?_
    simp only [comp_apply, other, Mist.CEnt.image, ← hcookie, ← hname, ne_eq,
      cookie_iff_name t ha₀ ha]
  rw [hlive, ← filter_map, h.image, filter_map, hlist]
  rfl

theorem image_kind (h : Represents hash d t) {x : Name} {e : CEnt} (kind : Kind) (he : e ∈ d.live)
    (htext : text d.arena e = x.bytes) :
    ((d.ents.map (change e fun a => { a with kind })).filter fun a => !a.dead).map
      (Compact.image d.arena) = (t.setKind x kind).ents.map Mist.CEnt.image := by
  obtain ⟨a₀, hfind, hcookie, -⟩ := h.findEnt_some he htext
  obtain ⟨ha₀, hname⟩ := findEnt_eq_some.mp hfind
  -- both sides are the images with the kind changed at the cookie of the entry
  let upd : Nat × List UInt8 × NodeKey × Kind → Nat × List UInt8 × NodeKey × Kind := fun p =>
    if p.1 = e.cookie then (p.1, p.2.1, p.2.2.1, kind) else p
  have hlive : ((d.ents.map (change e fun a => { a with kind })).filter fun a => !a.dead).map
      (Compact.image d.arena) = (d.live.map (Compact.image d.arena)).map upd := by
    rw [filter_map, map_map, map_map, DirState.live]
    have hpred : ((fun a : CEnt => !a.dead) ∘ change e fun a => { a with kind }) =
        fun a => !a.dead := by
      funext a
      simp only [comp_apply, change]
      split <;> rfl
    rw [hpred]
    refine map_congr_left fun a _ => ?_
    rw [comp_apply, comp_apply, change]
    by_cases hc : a.cookie = e.cookie
    · rw [if_pos hc]
      exact (if_pos hc).symm
    · rw [if_neg hc]
      exact (if_neg hc).symm
  have hlist : (t.setKind x kind).ents.map Mist.CEnt.image = (t.ents.map Mist.CEnt.image).map upd := by
    rw [Mist.DirState.setKind, map_map, map_map]
    refine map_congr_left fun a ha => ?_
    have hiff := cookie_iff_name t ha₀ ha
    rw [hcookie, hname] at hiff
    simp only [comp_apply, upd, Mist.CEnt.image, hiff]
    split <;> rfl
  rw [hlive, h.image, hlist]

end Represents

theorem Laid.change {d' : DirState} (h : Laid d) (harena : d'.arena = d.arena)
    (hnext : d'.nextCookie = d.nextCookie) (hents : d'.ents = d.ents.map (change e g))
    (hg : ∀ a, (g a).cookie = a.cookie ∧ (g a).nameOff = a.nameOff ∧ (g a).nameLen = a.nameLen) :
    Laid d' where
  range := by
    rw [hents, harena]
    exact forall_change (fun a ha => by rwa [(hg a).2.1, (hg a).2.2]) h.range
  named := by
    rw [hents]
    exact forall_change (fun a ha => by rwa [(hg a).2.2]) h.named
  stored := by
    rw [hents, harena, map_change fun a => (hg a).2.2]
    exact h.stored
  bounded := harena ▸ h.bounded
  sorted := by
    rw [hents, map_change fun a => (hg a).1]
    exact h.sorted
  below := by
    rw [hents, hnext]
    exact forall_change (fun a ha => by rwa [(hg a).1]) h.below

theorem HashTable.remove_eq (t : HashTable) (h : UInt64) (i : Nat) :
    t.remove h (fun j => j = i) = t.erase (h, i) := by
  rw [HashTable.remove, erase_eq_eraseP]
  congr 1
  funext s
  rw [Bool.eq_iff_iff, Bool.and_eq_true, decide_eq_true_eq, decide_eq_true_eq, beq_iff_eq,
    Prod.ext_iff]
  exact ⟨fun hs => ⟨hs.1.symm, hs.2.symm⟩, fun hs => ⟨hs.1.symm, hs.2.symm⟩⟩

namespace Represents

theorem length_le (h : Laid d) : d.ents.length ≤ d.arena.length := by
  have hsum := length_le_sum_of_one_le (d.ents.map CEnt.nameLen) (forall_mem_map.mpr h.named)
  rw [length_map] at hsum
  exact hsum.trans h.stored

section

variable (h : Represents hash d t)
include h

theorem tombstone {i : Nat} {e : CEnt} {x : Name}
    (hi : d.ents[i]? = some e) (he : e.dead = false) (htext : text d.arena e = x.bytes) :
    Represents hash (d.tombstone hash i e (text d.arena e)) (t.kill x) := by
  have hlive := mem_live_of_getElem? hi he
  have hset := set_eq_map (fun a => { a with dead := true }) hi h.sorted
  have hlaid : Laid (d.tombstone hash i e (text d.arena e)) :=
    h.toLaid.change rfl rfl hset fun _ => ⟨rfl, rfl, rfl⟩
  refine { hlaid with
    image := ?_, dead := ?_, index := fun g j => ?_, once := ?_, nextCookie := h.nextCookie
    dirgen := h.dirgen, complete := h.complete }
  · rw [DirState.live, DirState.tombstone, hset]
    exact h.image_dead hlive htext
  · -- one more is dead and one fewer live
    have hlen := congrArg length (h.image_dead hlive htext)
    have hold := congrArg length h.image
    obtain ⟨a, hfind, -⟩ := h.findEnt_some hlive htext
    have hkill : t.ents.length = (t.kill x).ents.length + 1 := (perm_kill hfind).length_eq
    have hdead := h.dead
    rw [length_map, length_map] at hlen hold
    show d.dead + 1 + ((d.ents.set i { e with dead := true }).filter fun a => !a.dead).length =
      (d.ents.set i { e with dead := true }).length
    rw [hset, hlen, length_map]
    omega
  · rw [DirState.tombstone, HashTable.remove_eq, h.once.mem_erase_iff, h.index]
    constructor
    · rintro ⟨hne, e', hj, he', rfl⟩
      have hij : i ≠ j := by
        rintro rfl
        obtain rfl : e = e' := Option.mem_unique hi hj
        exact hne rfl
      exact ⟨e', by rw [getElem?_set_ne hij, hj], he', rfl⟩
    · rintro ⟨e', hj, he', rfl⟩
      rcases getElem?_set_cases hj with ⟨-, rfl⟩ | ⟨hij, hj⟩
      · cases he'
      · exact ⟨fun heq => hij (Prod.mk.inj heq).2.symm, e', hj, he', rfl⟩
  · rw [DirState.tombstone, HashTable.remove_eq]
    exact h.once.erase _

theorem setKind {i : Nat} {e : CEnt} {x : Name} (kind : Kind)
    (hi : d.ents[i]? = some e) (he : e.dead = false) (htext : text d.arena e = x.bytes) :
    Represents hash { d with ents := d.ents.set i { e with kind } } (t.setKind x kind) := by
  have hlive := mem_live_of_getElem? hi he
  have hset := set_eq_map (fun a => { a with kind }) hi h.sorted
  have hlaid : Laid { d with ents := d.ents.set i { e with kind } } :=
    h.toLaid.change rfl rfl hset fun _ => ⟨rfl, rfl, rfl⟩
  refine { hlaid with
    image := ?_, dead := ?_, index := fun g j => ?_, once := h.once, nextCookie := h.nextCookie
    dirgen := h.dirgen, complete := h.complete }
  · rw [hset]
    exact h.image_kind kind hlive htext
  · have hlen := congrArg length (h.image_kind kind hlive htext)
    have hold := congrArg length h.image
    have hdead := h.dead
    rw [length_map, length_map, Mist.DirState.setKind, length_map] at hlen
    rw [length_map, length_map] at hold
    show d.dead + ((d.ents.set i { e with kind }).filter fun a => !a.dead).length =
      (d.ents.set i { e with kind }).length
    rw [hset, hlen, length_map]
    omega
  · rw [h.index]
    constructor
    · rintro ⟨e', hj, he', rfl⟩
      by_cases hij : i = j
      · subst hij
        obtain rfl : e = e' := Option.mem_unique hi hj
        exact ⟨{ e with kind }, by
          rw [getElem?_set_self (lt_length hi)], he', rfl⟩
      · exact ⟨e', by rw [getElem?_set_ne hij, hj], he', rfl⟩
    · rintro ⟨e', hj, he', rfl⟩
      rcases getElem?_set_cases hj with ⟨rfl, rfl⟩ | ⟨-, hj⟩
      · exact ⟨e, hi, he, rfl⟩
      · exact ⟨e', hj, he', rfl⟩

theorem rehash_eq {arena : List UInt8} {ents : List CEnt}
    (htext : ∀ (i : Nat) e, d.ents[i]? = some e → e.dead = false →
      ents[i]? = some e ∧ slice arena e = .ok (text d.arena e)) (s : UInt64 × Nat)
    (hs : s ∈ d.byName) : DirState.rehash hash arena ents s.2 = .ok s.1 := by
  obtain ⟨e, hi, he, hhash⟩ := (h.index s.1 s.2).mp hs
  obtain ⟨hi', hslice⟩ := htext s.2 e hi he
  rw [DirState.rehash, entAt_eq hi']
  show (slice arena e >>= fun name => Except.ok (hash name)) = _
  rw [hslice, hhash]
  rfl

end

end Represents

theorem HashTable.insertUnique_eq {t : HashTable} {hasher : Nat → Except Stop UInt64}
    (h : ∀ s ∈ t, hasher s.2 = .ok s.1) (g : UInt64) (i : Nat) :
    t.insertUnique g i hasher = .ok (t ++ [(g, i)]) := by
  have hmap : t.mapM (fun s => do return (← hasher s.2, s.2)) = Except.ok t := by
    rw [Returns.mapM_eq_ok (g := id) fun s hs => ?_, map_id]
    rw [h s hs]
    rfl
  rw [HashTable.insertUnique, hmap]
  rfl

namespace Represents

theorem append (h : Represents hash d t) {x : Name} {node : NodeKey} {kind : Kind} {new : CEnt}
    (hnew : new = ⟨d.nextCookie, node, d.arena.length, x.bytes.length, kind, false⟩)
    (hroom : d.arena.length + x.bytes.length < u32Size) (hnone : t.findEnt x = none) :
    Represents hash
      { d with
        arena := d.arena ++ x.bytes, ents := d.ents ++ [new]
        byName := d.byName ++ [(hash x.bytes, d.ents.length)]
        nextCookie := d.nextCookie + 1, dirgen := d.dirgen + 1 }
      (t.insertNew x node kind hnone) := by
  have hnewText : text (d.arena ++ x.bytes) new = x.bytes := by
    rw [hnew]
    simp [text]
  have hold : ∀ e ∈ d.ents, text (d.arena ++ x.bytes) e = text d.arena e := fun e he =>
    text_append (h.range e he)
  have hbytes := x.bytes_pos
  constructor
  case toLaid =>
    constructor
    · refine forall_concat (fun e he => ?_) ?_
      · have := h.range e he
        simp only [length_append]
        omega
      · simp [hnew]
    · exact forall_concat h.named (by rw [hnew]; exact hbytes)
    · have := h.stored
      simp only [map_append, map_cons, map_nil, sum_append, sum_cons,
        sum_nil, length_append, hnew]
      omega
    · simpa using hroom
    · rw [map_append, pairwise_append]
      refine ⟨h.sorted, pairwise_singleton .., fun c hc c' hc' => ?_⟩
      obtain ⟨e, he, rfl⟩ := mem_map.mp hc
      obtain rfl : c' = d.nextCookie := by simpa [hnew] using hc'
      exact h.below e he
    · refine forall_concat (fun e he => ?_) ?_
      · exact Nat.lt_succ_of_lt (h.below e he)
      · rw [hnew]
        exact Nat.lt_succ_self _
  case image =>
    have hlive : (d.ents ++ [new]).filter (fun e => !e.dead) = d.live ++ [new] := by
      rw [filter_append, filter_cons_of_pos (by simp [hnew]), filter_nil]
      rfl
    show ((d.ents ++ [new]).filter fun e => !e.dead).map (Compact.image (d.arena ++ x.bytes)) = _
    rw [hlive, map_append, Mist.DirState.insertNew, map_append, ← h.image]
    congr 1
    · refine map_congr_left fun e he => ?_
      rw [Compact.image, Compact.image, hold e (mem_live.mp he).1]
    have himage : Compact.image (d.arena ++ x.bytes) new = (d.nextCookie, x.bytes, node, kind) := by
      rw [Compact.image, hnewText, hnew]
    rw [map_singleton, himage, h.nextCookie]
    rfl
  case dead =>
    have := h.dead
    show d.dead + ((d.ents ++ [new]).filter fun e => !e.dead).length = (d.ents ++ [new]).length
    rw [filter_append, filter_cons_of_pos (by simp [hnew]), filter_nil,
      length_append, length_append, ← DirState.live, length_singleton]
    omega
  case index =>
    intro g j
    simp only [mem_append, mem_singleton, Prod.mk.injEq, h.index]
    constructor
    · rintro (⟨e, hj, he, rfl⟩ | ⟨rfl, rfl⟩)
      · have hlt := lt_length hj
        refine ⟨e, by rw [getElem?_append_left hlt, hj], he, ?_⟩
        rw [hold e (mem_of_getElem? hj)]
      · exact ⟨new, by simp, by rw [hnew], by rw [hnewText]⟩
    · rintro ⟨e, hj, he, rfl⟩
      rcases getElem?_append_cases hj with hj | ⟨rfl, rfl⟩
      · exact .inl ⟨e, hj, he, by rw [hold e (mem_of_getElem? hj)]⟩
      · exact .inr ⟨by rw [hnewText], rfl⟩
  case once =>
    refine nodup_append.mpr ⟨h.once, nodup_singleton _, fun s hs s' hs' heq => ?_⟩
    rw [mem_singleton.mp hs'] at heq
    obtain ⟨e, hj, -⟩ := (h.index s.1 s.2).mp hs
    have := lt_length hj
    rw [heq] at this
    omega
  case nextCookie => exact congrArg (· + 1) h.nextCookie
  case dirgen => exact congrArg (· + 1) h.dirgen
  case complete => exact h.complete

theorem insertNew (h : Represents hash d t) {x : Name} (node : NodeKey) (kind : Kind)
    (hnone : t.findEnt x = none) :
    Returns.Meets (· = Stop.limit) (d.insertNew hash x.bytes node kind)
      (Represents hash · (t.insertNew x node kind hnone)) := by
  refine Returns.Meets.ite (fun _ => rfl) fun hroom => ?_
  have hlt : d.arena.length + x.bytes.length < u32Size := Nat.lt_of_not_le hroom
  have hoff : d.arena.length % u32Size = d.arena.length := Nat.mod_eq_of_lt (by omega)
  have hidx : d.ents.length % u32Size = d.ents.length :=
    Nat.mod_eq_of_lt (Nat.lt_of_le_of_lt (length_le h.toLaid) h.bounded)
  have hlen : x.bytes.length % u16Size = x.bytes.length := Nat.mod_eq_of_lt x.bytes_small
  rw [hoff, hidx, hlen]
  refine Returns.Meets.bind (q := fun byName =>
    byName = d.byName ++ [(hash x.bytes, d.ents.length)]) ?_ ?_
  · refine Returns.Meets.of_eq (HashTable.insertUnique_eq (h.rehash_eq fun i e hi he => ?_) ..) rfl
    have hrange := h.range e (mem_of_getElem? hi)
    refine ⟨by rw [getElem?_append_left (lt_length hi), hi], ?_⟩
    rw [slice_eq, text_append hrange]
    rw [length_append]
    omega
  · rintro byName rfl
    exact h.append rfl hlt hnone

end Represents

end Compact

end Mist
