import Mathlib.Data.List.Basic

/-! A stream that arrives in pieces, and reads of an exact length from it. -/

namespace Wire

open List

variable {α : Type} {s : List (List α)} {a b : List α}

/-- Reads on until it has `n` items: those, and the pieces that are left.  A read that gives nothing
is the end of the stream. -/
def readExact : Nat → List (List α) → Option (List α × List (List α))
  | 0, s => some ([], s)
  | _ + 1, [] => none
  | _ + 1, [] :: _ => none
  | n + 1, (x :: c) :: s =>
    if n < c.length then some (x :: c.take n, c.drop n :: s)
    else (readExact (n - c.length) s).map fun r => (x :: c ++ r.1, r.2)

structure Carries (s : List (List α)) (a : List α) : Prop where
  items : s.flatten = a
  pieces : [] ∉ s

theorem Carries.readExact (h : Carries s (a ++ b)) :
    ∃ s', readExact a.length s = some (a, s') ∧ Carries s' b := by
  induction s generalizing a with
  | nil =>
    obtain ⟨rfl, rfl⟩ := append_eq_nil_iff.mp h.items.symm
    exact ⟨[], rfl, h⟩
  | cons c s ih =>
    cases a with
    | nil => exact ⟨_, rfl, h⟩
    | cons y a =>
      cases c with
      | nil => exact absurd (.head _) h.pieces
      | cons x c =>
        have hitems : x :: (c ++ s.flatten) = y :: (a ++ b) := h.items
        obtain ⟨rfl, hrest⟩ := cons.inj hitems
        have hpieces : [] ∉ s := fun hs => h.pieces (.tail _ hs)
        rw [length_cons, Wire.readExact]
        obtain ⟨d, rfl, hs⟩ | ⟨d, rfl, rfl⟩ := append_eq_append_iff.mp hrest
        · rw [if_neg (by simp), length_append, Nat.add_sub_cancel_left]
          obtain ⟨s', hread, hs'⟩ := ih (a := d) ⟨hs, hpieces⟩
          exact ⟨s', by rw [hread]; rfl, hs'⟩
        · cases d with
          | nil => exact ⟨s, by simp [Wire.readExact], rfl, hpieces⟩
          | cons z d => exact ⟨(z :: d) :: s, by simp, rfl, by simp [hpieces]⟩

theorem Carries.readExact_short (h : Carries s a) {n : Nat} (hn : a.length < n) :
    Wire.readExact n s = none := by
  induction s generalizing a n with
  | nil =>
    obtain ⟨m, rfl⟩ := Nat.exists_eq_add_one_of_ne_zero (Nat.ne_zero_of_lt hn)
    rfl
  | cons c s ih =>
    obtain ⟨m, rfl⟩ := Nat.exists_eq_add_one_of_ne_zero (Nat.ne_zero_of_lt hn)
    cases c with
    | nil => exact absurd (.head _) h.pieces
    | cons x c =>
      have hlen : c.length + s.flatten.length < m := by
        rw [← h.items, flatten_cons, length_append, length_cons] at hn
        omega
      rw [Wire.readExact, if_neg (by omega),
        ih ⟨rfl, fun hs => h.pieces (.tail _ hs)⟩ (by omega), Option.map_none]

end Wire
