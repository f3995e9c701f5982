import Mist.Compact.Records
import Mist.Replica.Tables

/-! A reader pages through a directory while journal records are applied between its calls. -/

namespace Mist.Compact

open Returns List Compact.ShareReplica Except

namespace ShareReplica

variable (hash : List UInt8 → UInt64)

def entriesOf (c : ShareReplica) (dir : NodeKey) : Option (List Mist.CEnt) :=
  (c.dirOf dir).bind fun d => (d.live.mapM (pageEntry d)).toOption

def createdStages (c : ShareReplica) (parent : NodeKey) : List SnapEntry →
    Except Stop (List ShareReplica)
  | [] => .ok []
  | e :: es => do
    let c ← c.created hash parent e.name e.node (some e.attr)
    return c :: (← c.createdStages parent es)

/-- The replica after each change a record makes to a directory: a batch makes one for each entry, a
rename takes the entry and then puts it back. -/
def stages (c : ShareReplica) : Rec → Except Stop (List ShareReplica)
  | .createdBatch parent entries => c.createdStages hash parent entries
  | .renamed fromParent fromName toParent toName => do
    match ← c.dentryTake hash fromParent fromName with
    | some ((node, kind), taken) =>
      return [taken, ← taken.dentryRelink hash toParent toName node kind]
    | none => return [c]
  | rec => do return [(← c.applyRec hash rec).1]

theorem stages_last (c : ShareReplica) (rec : Rec) :
    (c.applyRec hash rec).map Prod.fst = (c.stages hash rec).map fun cs => cs.getLastD c := by
  have hsingle : ∀ x : Except Stop (ShareReplica × ApplyOutcome),
      x.map Prod.fst = (x >>= fun u => pure [u.1]).map fun cs => cs.getLastD c := by
    intro x
    cases x with
    | ok u => rfl
    | error stop => rfl
  cases rec with
  | createdBatch parent entries =>
    have hbatch : ∀ (es : List SnapEntry) (c : ShareReplica),
        es.foldlM (fun c e => c.created hash parent e.name e.node (some e.attr)) c =
          (c.createdStages hash parent es).map fun cs => cs.getLastD c := by
      intro es
      induction es with
      | nil => exact fun c => rfl
      | cons e es ih =>
        intro c
        rw [foldlM_cons, createdStages]
        cases c.created hash parent e.name e.node (some e.attr) with
        | error stop => rfl
        | ok c₁ =>
          refine (ih c₁).trans ?_
          show _ = (c₁.createdStages hash parent es >>= fun cs => pure (c₁ :: cs)).map _
          cases c₁.createdStages hash parent es with
          | error stop => rfl
          | ok cs => exact congrArg ok getLastD_cons.symm
    rw [applyRec, hbatch, stages]
    cases c.createdStages hash parent entries with
    | error stop => rfl
    | ok cs => rfl
  | renamed fromParent fromName toParent toName =>
    rw [applyRec, stages]
    cases c.dentryTake hash fromParent fromName with
    | error stop => rfl
    | ok taken =>
      cases taken with
      | none => rfl
      | some t =>
        show (t.2.dentryRelink hash toParent toName t.1.1 t.1.2 >>= fun c => _).map _ =
          (t.2.dentryRelink hash toParent toName t.1.1 t.1.2 >>= fun c => _).map _
        cases t.2.dentryRelink hash toParent toName t.1.1 t.1.2 with
        | error stop => rfl
        | ok c₁ => rfl
  | created | removed | attrChanged | content | selfRemoved | overflow | echoMarker =>
    exact hsingle _

end ShareReplica

/-- A scan of one directory: the replica, all entries the directory had at each moment since the scan
began (the newest first), the cookie to go on from, the entries returned, and whether a page reported
the end. -/
structure Scan where
  replica : ShareReplica
  moments : List (List Mist.CEnt)
  cursor : Nat
  listed : List Mist.CEnt
  ended : Bool

inductive Turn where
  | apply (rec : Rec)
  | page (max : Nat)

namespace Scan

variable (hash : List UInt8 → UInt64) (dir : NodeKey)

def start (c : ShareReplica) (entries : List Mist.CEnt) : Scan := ⟨c, [entries], 0, [], false⟩

/-- The replica changes.  A directory that goes ends the scan. -/
def see (s : Scan) (c : ShareReplica) : Option Scan :=
  (c.entriesOf dir).map fun es => { s with replica := c, moments := es :: s.moments }

def next (s : Scan) (p : ReadDirPage) : Scan :=
  { s with
    cursor := (p.entries.getLast?.map Mist.CEnt.cookie).getD s.cursor
    listed := s.listed ++ p.entries
    ended := p.eof }

def step (s : Scan) : Turn → Option Scan
  | .apply rec =>
    match s.replica.stages hash rec with
    | .ok cs => cs.foldlM (see dir) s
    | .error _ => none
  | .page max =>
    if s.ended then none
    else
      match s.replica.readdir dir s.cursor max with
      | .ok (.ok p) => some (s.next p)
      | _ => none

end Scan

section

variable {hash : List UInt8 → UInt64} {c : ShareReplica} {r : Mist.ShareReplica} {dir : NodeKey}

theorem Simulates.entriesOf_eq (h : Simulates hash 0 c r) (dir : NodeKey) :
    c.entriesOf dir = (r.dirOf dir).map Mist.DirState.ents := by
  rw [entriesOf]
  cases hd : c.dirOf dir with
  | none =>
    rw [h.dirOf_none hd]
    rfl
  | some d =>
    obtain ⟨t, ht, hrep⟩ := h.dirOf_some hd
    rw [ht, Option.bind_some, mapM_pageEntry hrep (fun e he => he) hrep.image]
    rfl

theorem Simulates.stages (h : Simulates hash 0 c r) (rec : Rec) :
    Meets (· = Stop.limit) (c.stages hash rec) fun cs =>
      ∃ rs, Forall₂ (Simulates hash 0) cs rs ∧ (r :: rs).IsChain Mist.ShareReplica.Edited := by
  have hone : (∀ p es, rec ≠ .createdBatch p es) → (∀ p x q y, rec ≠ .renamed p x q y) →
      Meets (· = Stop.limit) (c.applyRec hash rec >>= fun u => pure [u.1]) fun cs =>
        ∃ rs, Forall₂ (Simulates hash 0) cs rs ∧
          (r :: rs).IsChain Mist.ShareReplica.Edited := by
    intro hbatch hrename
    refine (h.applyRec rec).bind fun u hu => ⟨[(r.applyRec rec).1], .cons hu.1 .nil, ?_⟩
    exact .cons_cons (Mist.ShareReplica.applyRec_edited r hbatch hrename) (.singleton _)
  cases rec with
  | createdBatch p es =>
    rw [ShareReplica.stages]
    clear hone
    induction es generalizing c r with
    | nil => exact ⟨[], .nil, .singleton _⟩
    | cons e es ih =>
      refine (h.created p e.name e.node (some e.attr)).bind fun c₁ h₁ => ?_
      refine (ih h₁).bind fun cs ⟨rs, hsim, hchain⟩ => ⟨_ :: rs, .cons h₁ hsim, ?_⟩
      exact .cons_cons (Mist.ShareReplica.created_edited r p _ _ _) hchain
  | renamed p x q y =>
    rw [ShareReplica.stages]
    rcases h.dentryTake p x with ⟨hc, -⟩ | ⟨⟨node, kind⟩, c₁, r₁, hc, hr, h₁⟩
    · rw [hc]
      refine ⟨[r], .cons h .nil, .cons_cons ?_ (.singleton _)⟩
      exact (Mist.ShareReplica.Retained.of_dirOf fun _ => rfl).edited
    rw [hc]
    refine (h₁.dentryRelink q y node kind).bind fun c₂ h₂ =>
      ⟨[r₁, r₁.dentryRelink q y node kind], .cons h₁ (.cons h₂ .nil), ?_⟩
    exact .cons_cons (Mist.ShareReplica.dentryTake_edited hr)
      (.cons_cons (Mist.ShareReplica.dentryRelink_edited r₁ q y node kind) (.singleton _))
  | created | removed | attrChanged | content | selfRemoved | overflow | echoMarker =>
    exact hone (by simp) (by simp)

end

/-- The scan over lists: the tables the directory had, with what the reader was given. -/
structure Tracks (hash : List UInt8 → UInt64) (dir : NodeKey) (s : Scan) (r : Mist.ShareReplica)
    (ts : List Mist.DirState) : Prop where
  sim : Simulates hash 0 s.replica r
  newest : ts.head? = r.dirOf dir
  moments : s.moments = ts.map Mist.DirState.ents
  sound : Paging.Scan.Sound Mist.CEnt.link
    ⟨ts.map Mist.DirState.listing, s.cursor, s.listed, s.ended⟩

section

variable {hash : List UInt8 → UInt64} {dir : NodeKey} {s s' : Scan} {r r' : Mist.ShareReplica}
  {ts : List Mist.DirState}

section

variable (h : Tracks hash dir s r ts)
include h

theorem Tracks.newest_some : ∃ t rest, ts = t :: rest ∧
    r.dirOf dir = some t := by
  cases ts with
  | nil => exact absurd rfl h.sound.nonempty
  | cons t rest => exact ⟨t, rest, rfl, h.newest.symm⟩

theorem Tracks.see {c : ShareReplica} (hc : Simulates hash 0 c r')
    (hedit : r.Edited r') (hs' : s.see dir c = some s') : ∃ t, Tracks hash dir s' r' (t :: ts) := by
  obtain ⟨es, hes, rfl⟩ := Option.map_eq_some_iff.mp hs'
  rw [hc.entriesOf_eq] at hes
  obtain ⟨t, ht, rfl⟩ := Option.map_eq_some_iff.mp hes
  obtain ⟨t₀, rest, rfl, ht₀⟩ := h.newest_some
  have hfollows : t₀.Edit t := by
    have := hedit dir t ht
    rw [ht₀] at this
    exact this
  exact ⟨t, hc, ht.symm, congrArg _ h.moments, h.sound.change rfl hfollows.follows⟩

theorem Tracks.apply {rec : Rec}
    (hs' : s.step hash dir (.apply rec) = some s') : ∃ r' ts', Tracks hash dir s' r' ts' := by
  have hstages := h.sim.stages rec
  rw [Scan.step] at hs'
  cases hcs : s.replica.stages hash rec with
  | error stop =>
    rw [hcs] at hs'
    cases hs'
  | ok cs =>
    rw [hcs] at hs' hstages
    obtain ⟨rs, hsim, hchain⟩ := hstages
    clear hcs
    dsimp only at hs'
    induction hsim generalizing s r ts with
    | nil =>
      obtain rfl : s = s' := Option.some.inj hs'
      exact ⟨r, ts, h⟩
    | @cons c r₁ cs rs hc hsim ih =>
      obtain ⟨hedit, hchain⟩ := isChain_cons_cons.mp hchain
      obtain ⟨s₁, hs₁, hs'⟩ := Option.bind_eq_some_iff.mp hs'
      obtain ⟨t, h₁⟩ := h.see hc hedit hs₁
      exact ih h₁ hs' hchain

end

variable {max : Nat}

theorem Scan.step_page (hs' : s.step hash dir (.page max) = some s') :
    ∃ p, s.replica.readdir dir s.cursor max = .ok (.ok p) ∧ s' = s.next p := by
  rw [Scan.step] at hs'
  split at hs'
  · cases hs'
  split at hs'
  · rename_i p hp
    exact ⟨p, hp, (Option.some.inj hs').symm⟩
  · cases hs'

theorem Tracks.page (h : Tracks hash dir s r ts) (hs' : s.step hash dir (.page max) = some s') :
    Tracks hash dir s' r ts ∧ ∃ t, r.dirOf dir = some t ∧ t.complete ∧
      s'.cursor = t.listing.reach s.cursor max ∧
      s'.ended = decide ((t.listing.after s.cursor).length ≤ max) := by
  obtain ⟨p, hp, rfl⟩ := Scan.step_page hs'
  rw [h.sim.readdir_eq] at hp
  obtain ⟨t, ht, hcomplete, rfl⟩ := Mist.ShareReplica.readdir_ok (ok.inj hp)
  obtain ⟨t₀, rest, rfl, ht₀⟩ := h.newest_some
  obtain rfl : t₀ = t := Option.mem_unique ht₀ ht
  refine ⟨{ h with sound := ?_ }, t₀, ht, hcomplete, rfl, rfl⟩
  exact h.sound.page (l := t₀.listing) rfl max

/-- After a page the next one is empty exactly if the end was reported. -/
theorem Tracks.page_last (h : Tracks hash dir s r ts)
    (hs' : s.step hash dir (.page max) = some s') (n : Nat) :
    ∃ p, s'.replica.readdir dir s'.cursor (n + 1) = .ok (.ok p) ∧ (p.entries = [] ↔ s'.ended) ∧
      (s'.ended → p.eof) := by
  obtain ⟨h', t, ht, hcomplete, hcursor, hended⟩ := h.page hs'
  refine ⟨_, (h'.sim.readdir_eq ..).trans
    (congrArg ok (Mist.ShareReplica.readdir_eq ht hcomplete _ _)), ?_, fun hend => ?_⟩
  · dsimp only
    rw [hcursor, hended, decide_eq_true_eq, ← Paging.Listing.after_reach_eq_nil]
    constructor
    · intro htake
      rcases take_eq_nil_iff.mp htake with hzero | hnil
      · cases hzero
      · exact hnil
    · intro hnil
      rw [hnil]
      rfl
  · rw [hended, decide_eq_true_eq, ← Paging.Listing.after_reach_eq_nil] at hend
    dsimp only
    rw [hcursor, hend]
    exact decide_eq_true (Nat.zero_le _)

theorem Tracks.of_reaches {c : ShareReplica} {es : List Mist.CEnt} (hc : Simulates hash 0 c r)
    (hreal : r.Tables Mist.DirState.Real) (hes : c.entriesOf dir = some es)
    (h : Runs.Reaches (Scan.step hash dir) (fun _ _ => True) (Scan.start c es) s) :
    ∃ r ts, Tracks hash dir s r ts := by
  rw [hc.entriesOf_eq] at hes
  obtain ⟨t, ht, rfl⟩ := Option.map_eq_some_iff.mp hes
  refine h.inv (I := fun s => ∃ r ts, Tracks hash dir s r ts) ⟨r, [t], hc, ht.symm, rfl, ?_⟩
    fun s turn s' ⟨r, ts, hs⟩ _ hs' => ?_
  · exact .start (l := t.listing) fun e he => Nat.lt_of_lt_of_le (by decide) ((hreal _ t ht).2 e he)
  · cases turn with
    | apply rec => exact hs.apply hs'
    | page max => exact ⟨r, ts, (hs.page hs').1⟩

end

/-- An entry that is there all the time is returned once, and the end is reported exactly if nothing
is left. -/
theorem scan_stable (hash : List UInt8 → UInt64) (info : ShareInfo) (calls : List ShareReplica.Call)
    (hvalid : ∀ call ∈ calls, call.valid info.id) (c : ShareReplica)
    (hrun : (ShareReplica.new info).run hash calls = .ok c) (dir : NodeKey) (es : List Mist.CEnt)
    (hdir : c.entriesOf dir = some es) (s : Scan)
    (h : Runs.Reaches (Scan.step hash dir) (fun _ _ => True) (Scan.start c es) s) :
    (s.listed.map Mist.CEnt.cookie).Pairwise (· < ·) ∧
      Paging.GivenOnce Mist.CEnt.cookie Mist.CEnt.link s.moments ∧
      (s.ended → ∀ x k, (∀ es ∈ s.moments, ∃ e ∈ es, e.name = x ∧ e.node = k) →
        ∃ e, (s.listed.filter fun e => e.name = x) = [e] ∧ e.node = k) ∧
      ∀ max s', s.step hash dir (.page max) = some s' → ∀ n, ∃ p,
        s'.replica.readdir dir s'.cursor (n + 1) = .ok (.ok p) ∧ (p.entries = [] ↔ s'.ended) ∧
          (s'.ended → p.eof) := by
  have hsim := (Simulates.new hash info).run (P := Mist.ShareReplica.Tables Mist.DirState.Real)
    nofun Mist.ShareReplica.feed_real hvalid
  rw [hrun] at hsim
  obtain ⟨r₀, hreal, hsim⟩ := hsim
  obtain ⟨r, ts, htracks⟩ := Tracks.of_reaches hsim hreal hdir h
  have hsound := htracks.sound
  refine ⟨hsound.sorted, ?_, fun hend x k hall => ?_, fun max s' hs' n => htracks.page_last hs' n⟩
  · have hitems : s.moments = (ts.map Mist.DirState.listing).map Paging.Listing.items := by
      rw [htracks.moments, map_map]
      rfl
    rw [hitems]
    exact hsound.moments.givenOnce
  · have hhas : ∀ l ∈ ts.map Mist.DirState.listing, ∃ n, l.Has Mist.CEnt.link n (x, k) := by
      intro l hl
      obtain ⟨t, ht, rfl⟩ := mem_map.mp hl
      obtain ⟨e, he, hx, hk⟩ := hall t.ents (htracks.moments ▸ mem_map_of_mem ht)
      exact ⟨e.cookie, e, he, rfl, by rw [Mist.CEnt.link, hx, hk]⟩
    obtain ⟨n, hn⟩ := hsound.moments.number hsound.nonempty hhas
    have hname : ∀ l ∈ ts.map Mist.DirState.listing, ∀ e ∈ l.items,
        decide (e.name = x) ↔ e.cookie = n := by
      intro l hl e he
      obtain ⟨t, -, rfl⟩ := mem_map.mp hl
      obtain ⟨e', he', hcookie, hlink⟩ := hn _ hl
      rw [decide_eq_true_eq]
      constructor
      · intro hx
        rw [t.ent_unique he he' (hx.trans (congrArg Prod.fst hlink).symm)]
        exact hcookie
      · intro hc
        rw [t.listing.num_inj he he' (hc.trans hcookie.symm)]
        exact congrArg Prod.fst hlink
    obtain ⟨e, hfilter, hlink⟩ := hsound.listed_once hend hn hname
    exact ⟨e, hfilter, congrArg Prod.snd hlink⟩

/-- Three files; after the first one sixteen others come and go, so that the table is compacted, and
the scan goes on with the second. -/
theorem scan_stable_compacted :
    let hash : List UInt8 → UInt64 := fun b => b.length.toUInt64
    let info : ShareInfo := ⟨⟨1⟩, ⟨2, 1⟩⟩
    let churn : List Turn := (range 16).flatMap fun i =>
      [.apply (.created ⟨2, 1⟩ (.letter 'x') ⟨i.toUInt64 + 100, 1⟩ none),
       .apply (.removed ⟨2, 1⟩ (.letter 'x'))]
    ∃ (c : ShareReplica) (es : List Mist.CEnt) (s : Scan),
      (new info).run hash [.feed (.listing ⟨1⟩ ⟨2, 1⟩ ⟨2, 1⟩
        [(.letter 'a', ⟨3, 1⟩, .reg), (.letter 'b', ⟨4, 1⟩, .reg), (.letter 'c', ⟨5, 1⟩, .reg)])] =
          .ok c ∧ c.entriesOf ⟨2, 1⟩ = some es ∧
        (Turn.page 1 :: churn ++ [Turn.page 1, Turn.page 1]).foldlM (Scan.step hash ⟨2, 1⟩)
          (Scan.start c es) = some s ∧
        (s.replica.dirOf ⟨2, 1⟩).map (fun d => (d.ents.length, d.dead)) = some (3, 0) ∧
        s.ended ∧ s.listed.map Mist.CEnt.cookie = [3, 4, 5] ∧
        (s.listed.map Mist.CEnt.cookie).Pairwise (· < ·) := by
  intro hash info churn
  have hrun : ∃ c, (new info).run hash [.feed (.listing ⟨1⟩ ⟨2, 1⟩ ⟨2, 1⟩
        [(.letter 'a', ⟨3, 1⟩, .reg), (.letter 'b', ⟨4, 1⟩, .reg), (.letter 'c', ⟨5, 1⟩, .reg)])] =
          .ok c ∧
      (c.entriesOf ⟨2, 1⟩).any fun es =>
        ((Turn.page 1 :: churn ++ [Turn.page 1, Turn.page 1]).foldlM (Scan.step hash ⟨2, 1⟩)
          (Scan.start c es)).any fun s => decide <|
            (s.replica.dirOf ⟨2, 1⟩).map (fun d => (d.ents.length, d.dead)) = some (3, 0) ∧
              s.ended ∧ s.listed.map Mist.CEnt.cookie = [3, 4, 5] :=
    Returns.exists_ok (by decide +kernel)
  obtain ⟨c, hc, hscan⟩ := hrun
  obtain ⟨es, hes, hscan⟩ := (Option.any_eq_true ..).mp hscan
  obtain ⟨s, hs, heval⟩ := (Option.any_eq_true ..).mp hscan
  obtain ⟨htable, hended, hlisted⟩ := of_decide_eq_true heval
  obtain ⟨hsorted, -⟩ := scan_stable hash info _ (by decide) c hc ⟨2, 1⟩ es hes s
    (Runs.Reaches.of_foldlM _ hs)
  exact ⟨c, es, s, hc, hes, hs, htable, hended, hlisted, hsorted⟩

end Mist.Compact
