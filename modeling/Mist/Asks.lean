import Mathlib.Logic.Basic

/-! Programs that work by asking an interface; a `Handler` also keeps a state and may stop. -/

/-- A program that ends with a value, or asks a question and goes on with the answer. -/
inductive Asks (Q : Type) (A : Q → Type) (α : Type) : Type where
  | done (a : α)
  | ask (q : Q) (next : A q → Asks Q A α)

namespace Asks

variable {Q : Type} {A : Q → Type} {α β σ : Type} {ok : Q → Prop}

def bind : Asks Q A α → (α → Asks Q A β) → Asks Q A β
  | done a, f => f a
  | ask q next, f => ask q fun a => (next a).bind f

instance : Monad (Asks Q A) where
  pure := done
  bind := bind

def query (q : Q) : Asks Q A (A q) := ask q done

@[simp] theorem pure_eq (a : α) : (pure a : Asks Q A α) = done a := rfl

@[simp] theorem done_bind (a : α) (f : α → Asks Q A β) : (done a >>= f) = f a := rfl

@[simp] theorem ask_bind (q : Q) (next : A q → Asks Q A α) (f : α → Asks Q A β) :
    (ask q next >>= f) = ask q fun a => next a >>= f := rfl

@[simp] theorem query_bind (q : Q) (f : A q → Asks Q A β) : (query q >>= f) = ask q f := rfl

/-- Every question the program may come to ask is `ok`, and every result it may end with has `post`. -/
def Holds (ok : Q → Prop) (post : α → Prop) : Asks Q A α → Prop
  | done a => post a
  | ask q next => ok q ∧ ∀ a, (next a).Holds ok post

theorem Holds.mono {post post' : α → Prop} {m : Asks Q A α} (h : m.Holds ok post)
    (himp : ∀ a, post a → post' a) : m.Holds ok post' := by
  induction m with
  | done a => exact himp a h
  | ask q next ih => exact ⟨h.1, fun a => ih a (h.2 a)⟩

theorem Holds.bind {mid : α → Prop} {post : β → Prop} {m : Asks Q A α} {f : α → Asks Q A β}
    (h : m.Holds ok mid) (hf : ∀ a, mid a → (f a).Holds ok post) : (m >>= f).Holds ok post := by
  induction m with
  | done a => exact hf a h
  | ask q next ih => exact ⟨h.1, fun a => ih a (h.2 a)⟩

/-- The end of a run: the result, the state of the interface, and the questions in their order. -/
structure End (Q α σ : Type) where
  result : α
  state : σ
  asked : List Q

def run (answer : (q : Q) → σ → A q × σ) : Asks Q A α → σ → End Q α σ
  | done a, s => ⟨a, s, []⟩
  | ask q next, s =>
    let e := (next (answer q s).1).run answer (answer q s).2
    { e with asked := q :: e.asked }

variable {answer : (q : Q) → σ → A q × σ}

@[simp] theorem run_done (a : α) (s : σ) : (done a : Asks Q A α).run answer s = ⟨a, s, []⟩ := rfl

theorem run_ask (q : Q) (next : A q → Asks Q A α) (s : σ) :
    (ask q next).run answer s =
      { (next (answer q s).1).run answer (answer q s).2 with
        asked := q :: ((next (answer q s).1).run answer (answer q s).2).asked } := rfl

theorem Holds.run {post : α → Prop} {m : Asks Q A α} (h : m.Holds ok post)
    (answer : (q : Q) → σ → A q × σ) (s : σ) :
    post (m.run answer s).result ∧ ∀ q ∈ (m.run answer s).asked, ok q := by
  induction m generalizing s with
  | done a => exact ⟨h, nofun⟩
  | ask q next ih =>
    obtain ⟨hpost, hasked⟩ := ih _ (h.2 (answer q s).1) (answer q s).2
    refine ⟨hpost, fun q' hq' => ?_⟩
    rcases List.mem_cons.mp hq' with rfl | hmem
    · exact h.1
    · exact hasked q' hmem

/-- The questions of a run, each with the state it is asked in. -/
def visits (answer : (q : Q) → σ → A q × σ) : Asks Q A α → σ → List (Q × σ)
  | done _, _ => []
  | ask q next, s => (q, s) :: (next (answer q s).1).visits answer (answer q s).2

/-- Along the run every question is `ok` in the state it is asked in, and its end has `post`. -/
def Meets (answer : (q : Q) → σ → A q × σ) (ok : Q → σ → Prop) (post : α → σ → Prop) :
    Asks Q A α → σ → Prop
  | done a, s => post a s
  | ask q next, s => ok q s ∧ (next (answer q s).1).Meets answer ok post (answer q s).2

section

variable {okAt : Q → σ → Prop} {post : α → σ → Prop} {m : Asks Q A α} {s : σ}

section

variable (h : m.Meets answer okAt post s)
include h

theorem Meets.run : post (m.run answer s).result (m.run answer s).state := by
  induction m generalizing s with
  | done a => exact h
  | ask q next ih => exact ih _ h.2

theorem Meets.visits : ∀ v ∈ m.visits answer s, okAt v.1 v.2 := by
  induction m generalizing s with
  | done a => exact nofun
  | ask q next ih =>
    intro v hv
    rcases List.mem_cons.mp hv with rfl | hrest
    · exact h.1
    · exact ih _ h.2 v hrest

theorem Meets.mono {post' : α → σ → Prop}
    (himp : ∀ a t, post a t → post' a t) : m.Meets answer okAt post' s := by
  induction m generalizing s with
  | done a => exact himp a s h
  | ask q next ih => exact ⟨h.1, ih _ h.2⟩

theorem Meets.bind {mid : β → σ → Prop} {f : α → Asks Q A β}
    (hf : ∀ a t, post a t → (f a).Meets answer okAt mid t) : (m >>= f).Meets answer okAt mid s := by
  induction m generalizing s with
  | done a => exact hf a s h
  | ask q next ih => exact ⟨h.1, ih _ h.2⟩

end

theorem Holds.meets {post' : α → Prop} (h : m.Holds ok post') (hok : ∀ q t, ok q → okAt q t)
    (hpost : ∀ a t, post' a → post a t) : m.Meets answer okAt post s := by
  induction m generalizing s with
  | done a => exact hpost a s h
  | ask q next ih => exact ⟨hok q s h.1, ih _ (h.2 _)⟩

end

/-- Whatever the answers are, the program comes to ask a question with `P`. -/
def Surely (P : Q → Prop) : Asks Q A α → Prop
  | done _ => False
  | ask q next => P q ∨ ∀ a, (next a).Surely P

theorem Surely.bind {P : Q → Prop} {m : Asks Q A α} (h : m.Surely P) (f : α → Asks Q A β) :
    (m >>= f).Surely P := by
  induction m with
  | done a => exact h.elim
  | ask q next ih => exact h.imp id fun hnext a => ih a (hnext a)

theorem Surely.run {P : Q → Prop} {m : Asks Q A α} (h : m.Surely P)
    (answer : (q : Q) → σ → A q × σ) (s : σ) : ∃ q ∈ (m.run answer s).asked, P q := by
  induction m generalizing s with
  | done a => exact h.elim
  | ask q next ih =>
    rcases h with hq | hnext
    · exact ⟨q, .head _, hq⟩
    · obtain ⟨q', hmem, hq'⟩ := ih _ (hnext (answer q s).1) (answer q s).2
      exact ⟨q', .tail _ hmem, hq'⟩

end Asks

/-- A program that asks, keeps a state, and may stop with a reason; the state is kept then too. -/
def Handler (Q : Type) (A : Q → Type) (ε σ α : Type) : Type := σ → Asks Q A (Except ε α × σ)

namespace Handler

variable {Q : Type} {A : Q → Type} {ε σ α β : Type}

instance : Monad (Handler Q A ε σ) where
  pure a := fun s => .done (.ok a, s)
  bind m f := fun s => do
    match ← m s with
    | (.ok a, s) => f a s
    | (.error e, s) => return (.error e, s)

def stop (e : ε) : Handler Q A ε σ α := fun s => .done (.error e, s)

def query (q : Q) : Handler Q A ε σ (A q) := fun s => .ask q fun a => .done (.ok a, s)

def get : Handler Q A ε σ σ := fun s => .done (.ok s, s)

def modify (f : σ → σ) : Handler Q A ε σ Unit := fun s => .done (.ok (), f s)

/-- From a state with `pre` the handler asks only what is `ok`; it ends in a state with `post`, or
stops in one with `stopped`. -/
def Triple (ok : Q → Prop) (stopped pre : σ → Prop) (m : Handler Q A ε σ α) (post : α → σ → Prop) :
    Prop :=
  ∀ s, pre s → (m s).Holds ok fun r =>
    (∀ a, r.1 = .ok a → post a r.2) ∧ ∀ e, r.1 = .error e → stopped r.2

variable {ok : Q → Prop} {stopped pre : σ → Prop} {m : Handler Q A ε σ α}
  {f : α → Handler Q A ε σ β} {post : β → σ → Prop}

theorem Triple.pure {a : β} (h : ∀ s, pre s → post a s) :
    Triple ok stopped pre (pure a : Handler Q A ε σ β) post := by
  refine fun s hs => ⟨fun b hb => ?_, nofun⟩
  cases hb
  exact h s hs

theorem Triple.stop {e : ε} (h : ∀ s, pre s → stopped s) :
    Triple ok stopped pre (stop e : Handler Q A ε σ β) post :=
  fun s hs => ⟨nofun, fun _ _ => h s hs⟩

theorem Triple.bind {mid : α → σ → Prop} (h : Triple ok stopped pre m mid)
    (hf : ∀ a, Triple ok stopped (mid a) (f a) post) : Triple ok stopped pre (m >>= f) post := by
  intro s hs
  refine (h s hs).bind fun r hr => ?_
  obtain ⟨r, s'⟩ := r
  cases r with
  | ok a => exact hf a s' (hr.1 a rfl)
  | error e => exact ⟨nofun, fun _ _ => hr.2 e rfl⟩

theorem Triple.query {q : Q} {post : A q → σ → Prop} (hq : ok q) (h : ∀ a s, pre s → post a s) :
    Triple ok stopped pre (query q : Handler Q A ε σ (A q)) post := by
  refine fun s hs => ⟨hq, fun a => ⟨fun b hb => ?_, nofun⟩⟩
  cases hb
  exact h _ s hs

theorem Triple.get {post : σ → σ → Prop} (h : ∀ s, pre s → post s s) :
    Triple ok stopped pre (get : Handler Q A ε σ σ) post := by
  refine fun s hs => ⟨fun b hb => ?_, nofun⟩
  cases hb
  exact h _ hs

theorem Triple.modify {g : σ → σ} {post : Unit → σ → Prop} (h : ∀ s, pre s → post () (g s)) :
    Triple ok stopped pre (modify g : Handler Q A ε σ Unit) post :=
  fun s hs => ⟨fun _ _ => h s hs, nofun⟩

theorem Triple.mono {pre' : σ → Prop} {m : Handler Q A ε σ β} {post' : β → σ → Prop}
    (h : Triple ok stopped pre m post) (hpre : ∀ s, pre' s → pre s)
    (hpost : ∀ a s, post a s → post' a s) : Triple ok stopped pre' m post' :=
  fun s hs => (h s (hpre s hs)).mono fun _ hr => ⟨fun a ha => hpost a _ (hr.1 a ha), hr.2⟩

theorem Triple.ite {p : Prop} [Decidable p] {m n : Handler Q A ε σ β}
    (hm : p → Triple ok stopped pre m post) (hn : ¬ p → Triple ok stopped pre n post) :
    Triple ok stopped pre (if p then m else n) post := by
  split
  · rename_i h
    exact hm h
  · rename_i h
    exact hn h

theorem meets_bind {τ : Type} {answer : (q : Q) → τ → A q × τ} {okAt : Q → τ → Prop}
    {post : Except ε β × σ → τ → Prop} {m : Handler Q A ε σ α} {f : α → Handler Q A ε σ β} {s : σ}
    {t : τ} (h : (m s).Meets answer okAt (fun r t =>
      (∀ a, r.1 = .ok a → (f a r.2).Meets answer okAt post t) ∧
        ∀ e, r.1 = .error e → post (.error e, r.2) t) t) :
    ((m >>= f) s).Meets answer okAt post t := by
  refine Asks.Meets.bind h fun r t hr => ?_
  obtain ⟨r, s'⟩ := r
  cases r with
  | ok a => exact hr.1 a rfl
  | error e => exact hr.2 e rfl

end Handler
