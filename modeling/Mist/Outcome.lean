import Mathlib.Data.List.Basic

/-! Programs that return a value or stop for a reason. -/

namespace Returns

variable {ε α β : Type} {ok : ε → Prop}

/-- The program returns a value with `post`, or stops for a reason in `ok`. -/
def Meets (ok : ε → Prop) (x : Except ε α) (post : α → Prop) : Prop :=
  match x with
  | .ok a => post a
  | .error e => ok e

theorem Meets.of_eq {x : Except ε α} {post : α → Prop} {a : α} (hx : x = .ok a) (h : post a) :
    Meets ok x post := by
  rw [hx]
  exact h

theorem Meets.mono {x : Except ε α} {post post' : α → Prop} (h : Meets ok x post)
    (himp : ∀ a, post a → post' a) : Meets ok x post' := by
  cases x with
  | ok a => exact himp a h
  | error e => exact h

theorem Meets.bind {x : Except ε α} {f : α → Except ε β} {q : α → Prop} {post : β → Prop}
    (h : Meets ok x q) (hf : ∀ a, q a → Meets ok (f a) post) : Meets ok (x >>= f) post := by
  cases x with
  | ok a => exact hf a h
  | error e => exact h

theorem Meets.ite {p : Prop} [Decidable p] {x y : Except ε α} {post : α → Prop}
    (hx : p → Meets ok x post) (hy : ¬ p → Meets ok y post) :
    Meets ok (if p then x else y) post := by
  split_ifs with h
  · exact hx h
  · exact hy h

theorem Meets.stops_or {e : ε} {x : Except ε α} {post : α → Prop} (h : Meets (· = e) x post) :
    x = .error e ∨ ∃ a, x = .ok a ∧ post a := by
  cases x with
  | ok a => exact .inr ⟨a, rfl, h⟩
  | error e' => exact .inl (congrArg _ h)

theorem Meets.any (x : Except ε α) : Meets (fun _ => True) x fun _ => True := by
  cases x <;> trivial

theorem Meets.and {ok' : ε → Prop} {x : Except ε α} {post post' : α → Prop} (h : Meets ok x post)
    (h' : Meets ok' x post') : Meets ok x fun a => post a ∧ post' a := by
  cases x with
  | ok a => exact ⟨h, h'⟩
  | error e => exact h

theorem mapM_eq_ok {f : α → Except ε β} {g : α → β} {l : List α} (hf : ∀ a ∈ l, f a = .ok (g a)) :
    l.mapM f = .ok (l.map g) := by
  induction l with
  | nil => rfl
  | cons a l ih =>
    rw [List.mapM_cons, hf a List.mem_cons_self, ih fun a' ha' => hf a' (.tail _ ha')]
    rfl

theorem exists_ok {x : Except ε α} {p : α → Bool} (h : x.toOption.any p) : ∃ a, x = .ok a ∧ p a := by
  cases x with
  | ok a => exact ⟨a, rfl, h⟩
  | error e => cases h

end Returns
