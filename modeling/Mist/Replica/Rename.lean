import Mist.Replica.Tables
import Mist.Runs

/-! A `Renamed` record in the steps its thread takes under one lock each, with readers that run
between them. -/

namespace Mist.Rename

open ShareReplica Option Runs Reaches

structure Args where
  fromParent : NodeKey
  fromName : Name
  toParent : NodeKey
  toName : Name

/-- What is left to do for a replaced node: a link to take, or a node without one to remove. -/
inductive Drop where
  | dec (k : NodeKey)
  | remove (k : NodeKey)
  deriving DecidableEq

/-- Where the thread of the record is: before `dentry_take`, before the entry is set at the target, in
`link_dec` of the replaced node, and through. -/
inductive Pc where
  | start
  | taken (node : NodeKey) (kind : Kind)
  | dropping (todo : List Drop) (node : NodeKey)
  | done
  deriving DecidableEq

def write (a : Args) (r : ShareReplica) : Pc → Option (ShareReplica × Pc)
  | .start =>
    match r.dentryTake a.fromParent a.fromName with
    | some ((node, kind), r) => some (r, .taken node kind)
    | none => some (r, .done)
  | .taken node kind =>
    match r.dirOf a.toParent with
    | none => some (r, .done)
    | some t =>
      let u := t.upsert a.toName node kind
      some ((r.setDir a.toParent u.1).entriesAdd u.2.dentryDelta,
        .dropping (u.2.displaced.toList.map .dec) node)
  | .dropping [] node => some (r.setParent node a.toParent, .done)
  | .dropping (.dec k :: todo) node =>
    match r.shards.lookup k with
    | none => some (r, .dropping todo node)
    | some n =>
      some (r.modifyNode k fun n => { n with links := n.links - 1 },
        .dropping (if n.links - 1 = 0 ∧ k ≠ r.root then .remove k :: todo else todo) node)
  | .dropping (.remove k :: todo) node =>
    match r.shards.lookup k with
    | none => some (r, .dropping todo node)
    | some n =>
      some ({ r.forget (k, n) with shards := r.shards.erase k },
        .dropping (n.targets.map .dec ++ todo) node)
  | .done => none

/-- A look-up: nothing read yet, the entry read, or answered, with no node for an error. -/
inductive Lookup where
  | asked
  | found (child : NodeKey)
  | answered (node : Option NodeKey)
  deriving DecidableEq

def Lookup.read (r : ShareReplica) (dir : NodeKey) (name : Name) : Lookup → Lookup
  | .asked =>
    match r.entry dir name with
    | some k => .found k
    | none => .answered none
  | .found k => .answered (if r.live k then some k else none)
  | .answered node => .answered node

theorem Lookup.read_read (r : ShareReplica) (dir : NodeKey) (name : Name) :
    (Lookup.asked.read r dir name).read r dir name =
      .answered ((r.lookup dir name).toOption.map Prod.fst) := by
  cases hn : r.shards.lookup dir with
  | none => simp only [Lookup.read, entry, dirOf, lookup, hn]; rfl
  | some n =>
    cases hd : n.dir with
    | none => simp only [Lookup.read, entry, dirOf, lookup, hn, bind_some, hd]; rfl
    | some t =>
      cases hf : t.find name with
      | none => simp only [Lookup.read, entry, dirOf, lookup, hn, bind_some, hd, hf]; rfl
      | some found =>
        simp only [Lookup.read, entry, dirOf, lookup, hn, bind_some, hd, hf, map_some]
        rw [live, getattr]
        cases r.shards.lookup found.1 with
        | none => rfl
        | some m => rfl

/-- A reader: a look-up of the old name followed by one of the new name, a look-up of the new name,
and a page from the beginning of the directory. -/
inductive Reader where
  | pair (old new : Lookup)
  | target (l : Lookup)
  | page (max : Nat) (answer : Option (Except ReplicaError ReadDirPage))
  deriving DecidableEq

def Reader.read (r : ShareReplica) (a : Args) : Reader → Reader
  | .pair (.answered node) new => .pair (.answered node) (new.read r a.toParent a.toName)
  | .pair old new => .pair (old.read r a.fromParent a.fromName) new
  | .target l => .target (l.read r a.toParent a.toName)
  | .page max none => .page max (some (r.readdir a.fromParent 0 max))
  | .page max answer => .page max answer

def Reader.fresh : Reader → Bool
  | .pair old new => old = .asked && new = .asked
  | .target l => l = .asked
  | .page _ answer => answer.isNone

structure System where
  replica : ShareReplica
  pc : Pc
  readers : List Reader

inductive Move where
  | write
  | spawn (reader : Reader)
  | read (i : Nat)

def System.step (a : Args) (s : System) : Move → Option System
  | .write => (write a s.replica s.pc).map fun w => { s with replica := w.1, pc := w.2 }
  | .spawn reader => if reader.fresh then some { s with readers := s.readers ++ [reader] } else none
  | .read i => (s.readers[i]?).map fun reader =>
      { s with readers := s.readers.set i (reader.read s.replica a) }

section

variable {a : Args} {r : ShareReplica}

theorem forget_with_shards (r : ShareReplica) (gone : NodeKey × Node) (m : KeyMap NodeKey Node) :
    { r.forget gone with shards := m } = { r with shards := m }.forget gone := by
  unfold forget
  cases gone.2.hasSide with
  | true =>
    cases gone.2.dir with
    | none => rfl
    | some t => rfl
  | false =>
    cases gone.2.dir with
    | none => rfl
    | some t => rfl

/-- The links and nodes of a worklist are dropped in the order of the collection. -/
theorem drop_run (node : NodeKey) (readers : List Reader) (root : NodeKey)
    (m : KeyMap NodeKey Node) (todo : List NodeKey) (r : ShareReplica) (hroot : r.root = root)
    (hm : r.shards = m) :
    Reaches (System.step a) (fun _ m => m = .write)
      ⟨r, .dropping (todo.map .dec) node, readers⟩
      ⟨r.settle (Node.counting.collect root m todo), .dropping [] node, readers⟩ := by
  fun_induction Counting.collect Node.counting root m todo generalizing r with
  | case1 m =>
    subst hm
    exact .refl
  | case2 m k todo hk ih =>
    refine .head rfl ?_ (ih r hroot hm)
    simp only [System.step, write, List.map_cons, hm, hk, map_some]
  | case3 m k todo v hk hgone rest ih =>
    let v' : Node := { v with links := v.links - 1 }
    let r₁ : ShareReplica := { r with shards := m.insert k v' }
    let r₂ : ShareReplica := { r₁.forget (k, v') with shards := m.erase k }
    have hdec : System.step a ⟨r, .dropping ((k :: todo).map .dec) node, readers⟩ .write =
        some ⟨r₁, .dropping (.remove k :: todo.map .dec) node, readers⟩ := by
      have hcond : v.links - 1 = 0 ∧ k ≠ r.root := hroot ▸ hgone
      simp only [System.step, write, List.map_cons, hm, hk, map_some, modifyNode,
        if_pos hcond, r₁, v']
    have hremove : System.step a ⟨r₁, .dropping (.remove k :: todo.map .dec) node, readers⟩ .write =
        some ⟨r₂, .dropping ((v.targets ++ todo).map .dec) node, readers⟩ := by
      have hlook : r₁.shards.lookup k = some v' := Finmap.lookup_insert _
      have herase : r₁.shards.erase k = m.erase k := KeyMap.erase_insert ..
      have htargets : v'.targets = v.targets := rfl
      simp only [System.step, write, hlook, herase, htargets, map_some, List.map_append, r₂]
    have hend : r₂.settle rest = r.settle (rest.1, (k, v) :: rest.2) := by
      have hfirst : { r₂ with shards := rest.1 } = { r with shards := rest.1 }.forget (k, v) :=
        (forget_with_shards r₁ (k, v') rest.1).trans rfl
      rw [settle, settle, List.foldl_cons, hfirst]
    rw [← hend]
    refine .head rfl hdec (.head rfl hremove (ih r₂ ?_ rfl))
    rw [← hroot]
    exact congrArg ShareInfo.root (forget_info r₁ (k, v'))
  | case4 m k todo v hk hstay ih =>
    let r₁ : ShareReplica := { r with shards := m.insert k { v with links := v.links - 1 } }
    have hdec : System.step a ⟨r, .dropping ((k :: todo).map .dec) node, readers⟩ .write =
        some ⟨r₁, .dropping (todo.map .dec) node, readers⟩ := by
      have hcond : ¬ (v.links - 1 = 0 ∧ k ≠ r.root) := hroot ▸ hstay
      simp only [System.step, write, List.map_cons, hm, hk, map_some, modifyNode, if_neg hcond, r₁]
    exact .head rfl hdec (ih r₁ hroot rfl)

/-- With no reader in between, the steps do what applying the record does. -/
theorem write_run (a : Args) (r : ShareReplica) :
    Reaches (System.step a) (fun _ m => m = .write) ⟨r, .start, []⟩
      ⟨(r.applyRec (.renamed a.fromParent a.fromName a.toParent a.toName)).1, .done, []⟩ := by
  rw [applyRec]
  cases htake : r.dentryTake a.fromParent a.fromName with
  | none =>
    refine .head rfl ?_ .refl
    simp only [System.step, write, htake, map_some]
  | some taken =>
    obtain ⟨⟨node, kind⟩, r₁⟩ := taken
    have hstart : System.step a ⟨r, .start, []⟩ .write = some ⟨r₁, .taken node kind, []⟩ := by
      simp only [System.step, write, htake, map_some]
    refine .head rfl hstart ?_
    cases ht : r₁.dirOf a.toParent with
    | none =>
      refine .head rfl ?_ .refl
      simp only [System.step, write, ht, map_some, dentryRelink]
    | some t =>
      dsimp only
      rw [dentryRelink_eq ht]
      have htaken : System.step a ⟨r₁, .taken node kind, []⟩ .write =
          some ⟨r₁.placed a.toParent t a.toName node kind,
            .dropping ((t.upsert a.toName node kind).2.displaced.toList.map .dec) node, []⟩ := by
        simp only [System.step, write, ht, map_some, placed]
      refine .head rfl htaken ?_
      have hparent : ∀ r : ShareReplica, System.step a ⟨r, .dropping [] node, []⟩ .write =
          some ⟨r.setParent node a.toParent, .done, []⟩ := fun r => rfl
      cases (t.upsert a.toName node kind).2.displaced with
      | none => exact .head rfl (hparent _) .refl
      | some k => exact .tail (drop_run node [] _ _ [k] _ rfl rfl) rfl (hparent _)

end

/-- The reader was told of the moved node `m`: under the old name or the new one, under one of the two
in a page of all entries, and a look-up of the new name got the node that had the name or `m`. -/
def Reader.Right (r : ShareReplica) (a : Args) (m : NodeKey) : Reader → Prop
  | .pair old (.answered node) => old = .answered (some m) ∨ node = some m
  | .target (.answered node) =>
    ∀ k, r.entry a.toParent a.toName = some k → r.live k → node = some k ∨ node = some m
  | .page _ (some (.ok listed)) =>
    a.fromParent = a.toParent → listed.eof →
      ((a.fromName, m) ∈ listed.entries.map CEnt.link ∨
        (a.toName, m) ∈ listed.entries.map CEnt.link) ∧
      (a.fromName ≠ a.toName → ¬ ((a.fromName, m) ∈ listed.entries.map CEnt.link ∧
        (a.toName, m) ∈ listed.entries.map CEnt.link))
  | _ => True

def Pc.between : Pc → Bool
  | .taken .. => true
  | _ => false

/-- The next read is one of the new name after the old one was not found, of the one name of a rename
that does not change it, or of the page of the directory the rename is within. -/
def Reader.exposed (a : Args) : Reader → Bool
  | .pair (.answered none) .asked => true
  | .target .asked => a.fromParent = a.toParent && a.fromName = a.toName
  | .page _ none => a.fromParent = a.toParent
  | _ => false

/-- No exposed read falls between the two changes.  The collection of the replaced node does not come
to the target directory or the moved node, and removes no node that a look-up of the new name has
found and not read yet. -/
def System.apart (a : Args) (s : System) : Move → Bool
  | .write =>
    match s.pc with
    | .dropping (.remove k :: _) node =>
      k ≠ a.toParent && k ≠ node && .target (.found k) ∉ s.readers
    | _ => true
  | .spawn _ => true
  | .read i => !(s.pc.between && (s.readers[i]?).any (Reader.exposed a))

section

variable {a : Args} {r r' : ShareReplica} {m k : NodeKey}

structure Moved (a : Args) (m : NodeKey) (r : ShareReplica) : Prop where
  live : r.live m
  entry : r.entry a.toParent a.toName = some m
  left : ∀ k, r.entry a.fromParent a.fromName = some k →
    a.fromParent = a.toParent ∧ a.fromName = a.toName

def Phase (r : ShareReplica) (a : Args) (m : NodeKey) (r' : ShareReplica) : Pc → Prop
  | .start => r' = r
  | .taken node kind => node = m ∧ r.dentryTake a.fromParent a.fromName = some ((m, kind), r')
  | .dropping _ node => node = m ∧ Moved a m r'
  | .done => Moved a m r'

theorem Moved.of_same (h : Moved a m r) (hlive : r'.live m)
    (hdir : r'.dirOf a.toParent = r.dirOf a.toParent)
    (hfrom : r'.dirOf a.fromParent = r.dirOf a.fromParent ∨ r'.dirOf a.fromParent = none) :
    Moved a m r' where
  live := hlive
  entry := by
    rw [ShareReplica.entry, hdir]
    exact h.entry
  left k hk := by
    rcases hfrom with hfrom | hfrom
    · exact h.left k (by rwa [ShareReplica.entry, hfrom] at hk)
    · rw [ShareReplica.entry, hfrom] at hk
      cases hk

theorem take_view {kind : Kind} (hx : r.entry a.fromParent a.fromName = some m)
    (h : r.dentryTake a.fromParent a.fromName = some ((m, kind), r')) :
    r'.view = r.view.set a.fromParent a.fromName none := by
  obtain ⟨t, t', kind', ht, hrem, heq⟩ := dentryTake_eq hx
  rw [h] at heq
  rw [(Prod.mk.inj (some.inj heq)).2, view_entriesAdd, setDir_remove_view ht hrem]

theorem Moved.placed {kind : Kind} {t : DirState} (hx : r.entry a.fromParent a.fromName = some m)
    (hm : r.live m) (h : r.dentryTake a.fromParent a.fromName = some ((m, kind), r'))
    (ht : r'.dirOf a.toParent = some t) : Moved a m (r'.placed a.toParent t a.toName m kind) := by
  have hview : (r'.placed a.toParent t a.toName m kind).view =
      (r.view.set a.fromParent a.fromName none).set a.toParent a.toName (some m) := by
    rw [placed_view ht, take_view hx h]
  refine ⟨(view_live hview m).mpr hm, ?_, fun k hk => ?_⟩
  · rw [view_entry hview]
    exact if_pos ⟨rfl, rfl⟩
  rw [view_entry hview] at hk
  by_contra hne
  have hnone : ((r.view.set a.fromParent a.fromName none).set a.toParent a.toName (some m)).entry
      a.fromParent a.fromName = none := (if_neg hne).trans (if_pos ⟨rfl, rfl⟩)
  rw [hnone] at hk
  cases hk

variable {pc pc' : Pc} {reader : Reader} {r'' : ShareReplica}

theorem dropping_step {todo : List Drop} {node : NodeKey}
    (hw : write a r (.dropping todo node) = some (r', pc)) :
    (pc = .done ∨ ∃ todo', pc = .dropping todo' node) ∧
      ∀ j, (r'.shards.lookup j).map Node.dir = (r.shards.lookup j).map Node.dir ∨
        (∃ rest, todo = .remove j :: rest) ∧ r'.shards.lookup j = none := by
  have hmodify : ∀ (k : NodeKey) (f : Node → Node), (∀ n, (f n).dir = n.dir) → ∀ j,
      ((r.modifyNode k f).shards.lookup j).map Node.dir = (r.shards.lookup j).map Node.dir := by
    intro k f hf j
    rw [lookup_modifyNode]
    split
    · rw [map_map]
      exact congrArg (fun g => Option.map g _) (funext hf)
    · rfl
  cases todo with
  | nil =>
    cases hw
    exact ⟨.inl rfl, fun j => .inl (hmodify node _ (by intro n; rfl) j)⟩
  | cons drop todo =>
    cases drop with
    | dec k =>
      rw [write] at hw
      cases hk : r.shards.lookup k with
      | none =>
        rw [hk] at hw
        cases hw
        exact ⟨.inr ⟨_, rfl⟩, fun j => .inl rfl⟩
      | some n =>
        rw [hk] at hw
        cases hw
        exact ⟨.inr ⟨_, rfl⟩, fun j => .inl (hmodify k _ (by intro n; rfl) j)⟩
    | remove k =>
      rw [write] at hw
      cases hk : r.shards.lookup k with
      | none =>
        rw [hk] at hw
        cases hw
        exact ⟨.inr ⟨_, rfl⟩, fun j => .inl rfl⟩
      | some n =>
        rw [hk] at hw
        cases hw
        refine ⟨.inr ⟨_, rfl⟩, fun j => ?_⟩
        by_cases hj : j = k
        · rw [hj]
          exact .inr ⟨⟨_, rfl⟩, Finmap.lookup_erase ..⟩
        · refine .inl ?_
          rw [Finmap.lookup_erase_ne hj]

theorem dirOf_of_dir {j : NodeKey}
    (h : (r'.shards.lookup j).map Node.dir = (r.shards.lookup j).map Node.dir) :
    r'.dirOf j = r.dirOf j ∧ r'.live j = r.live j := by
  refine ⟨?_, ?_⟩
  · have := congrArg (fun o => o.bind id) h
    simp only [bind_map, Function.id_comp] at this
    exact this
  · have := congrArg isSome h
    rwa [isSome_map, isSome_map] at this

section

variable (hx : r.entry a.fromParent a.fromName = some m)
include hx

theorem Phase.write (hm : r.live m) (hq : r.isDir a.toParent) (h : Phase r a m r' pc)
    (hok : ∀ k todo node, pc = .dropping (.remove k :: todo) node → k ≠ a.toParent ∧ k ≠ node)
    (hw : Rename.write a r' pc = some (r'', pc')) : Phase r a m r'' pc' := by
  cases pc with
  | start =>
    obtain rfl : r' = r := h
    obtain ⟨t, t', kind, -, -, htake⟩ := dentryTake_eq hx
    simp only [Rename.write, htake, some.injEq, Prod.mk.injEq] at hw
    obtain ⟨rfl, rfl⟩ := hw
    exact ⟨rfl, htake⟩
  | taken node kind =>
    obtain ⟨rfl, htake⟩ := h
    have hdir : r'.isDir a.toParent := by
      show r'.view.dir a.toParent
      rw [take_view hx htake]
      exact hq
    obtain ⟨t, ht⟩ := isSome_iff_exists.mp hdir
    simp only [Rename.write, ht, some.injEq, Prod.mk.injEq] at hw
    obtain ⟨rfl, rfl⟩ := hw
    exact ⟨rfl, Moved.placed hx hm htake ht⟩
  | dropping todo node =>
    obtain ⟨rfl, hmoved⟩ := h
    obtain ⟨hpc, hsame⟩ := dropping_step hw
    have hkept : ∀ j, (∀ rest, todo ≠ .remove j :: rest) →
        r''.dirOf j = r'.dirOf j ∧ r''.live j = r'.live j := by
      intro j hj
      rcases hsame j with hdir | ⟨⟨rest, hrest⟩, -⟩
      · exact dirOf_of_dir hdir
      · exact absurd hrest (hj rest)
    have hthere := hkept a.toParent fun rest hrest => (hok _ rest node (by rw [hrest])).1 rfl
    have hnode := hkept node fun rest hrest => (hok _ rest node (by rw [hrest])).2 rfl
    have hfrom : r''.dirOf a.fromParent = r'.dirOf a.fromParent ∨ r''.dirOf a.fromParent = none := by
      rcases hsame a.fromParent with hdir | ⟨-, hgone⟩
      · exact .inl (dirOf_of_dir hdir).1
      · exact .inr (by rw [dirOf, hgone, bind_none])
    have hmoved' : Moved a node r'' := hmoved.of_same (hnode.2 ▸ hmoved.live) hthere.1 hfrom
    rcases hpc with rfl | ⟨todo', rfl⟩
    · exact hmoved'
    · exact ⟨rfl, hmoved'⟩
  | done => cases hw

theorem Phase.live (hm : r.live m) (h : Phase r a m r' pc) : r'.live m := by
  cases pc with
  | start => exact (show r' = r from h) ▸ hm
  | taken node kind => exact (view_live (take_view hx h.2) m).mpr hm
  | dropping todo node => exact h.2.live
  | done => exact Moved.live h

theorem write_live (h : Phase r a m r' pc) (hw : write a r' pc = some (r'', pc')) (hk : r'.live k)
    (hok : ∀ todo node, pc ≠ .dropping (.remove k :: todo) node) : r''.live k := by
  cases pc with
  | start =>
    obtain rfl : r' = r := h
    obtain ⟨t, t', kind, -, -, htake⟩ := dentryTake_eq hx
    have hview := take_view hx htake
    simp only [write, htake, some.injEq, Prod.mk.injEq] at hw
    obtain ⟨rfl, rfl⟩ := hw
    exact (view_live hview k).mpr hk
  | taken node kind =>
    rw [write] at hw
    cases ht : r'.dirOf a.toParent with
    | none =>
      rw [ht] at hw
      cases hw
      exact hk
    | some t =>
      rw [ht] at hw
      cases hw
      exact (view_live (placed_view ht a.toName node kind) k).mpr hk
  | dropping todo node =>
    rcases (dropping_step hw).2 k with hdir | ⟨⟨rest, hrest⟩, -⟩
    · exact (dirOf_of_dir hdir).2 ▸ hk
    · exact absurd (by rw [hrest]) (hok rest node)
  | done => cases hw

end

theorem write_real (h : r.Tables DirState.Real) (hw : write a r pc = some (r', pc')) :
    r'.Tables DirState.Real := by
  have hedit : ∀ {r''}, Edited r r'' → r''.Tables DirState.Real :=
    fun he => he.tables .new (fun _ _ ht => ht.edit) h
  cases pc with
  | start =>
    rw [write] at hw
    cases htake : r.dentryTake a.fromParent a.fromName with
    | none =>
      rw [htake] at hw
      cases hw
      exact h
    | some taken =>
      rw [htake] at hw
      cases hw
      exact hedit (dentryTake_edited htake)
  | taken node kind =>
    rw [write] at hw
    cases ht : r.dirOf a.toParent with
    | none =>
      rw [ht] at hw
      cases hw
      exact h
    | some t =>
      rw [ht] at hw
      cases hw
      exact hedit (placed_edited ht)
  | dropping todo node =>
    intro d t ht
    rcases (dropping_step hw).2 d with hdir | ⟨-, hgone⟩
    · exact h d t ((dirOf_of_dir hdir).1 ▸ ht)
    · rw [dirOf, hgone] at ht
      cases ht
  | done => cases hw

/-- What a reader has and may still be told, with the replica at `r'` and the record at `pc`. -/
def Reader.Going (r : ShareReplica) (a : Args) (m : NodeKey) (r' : ShareReplica) (pc : Pc) :
    Reader → Prop
  | .pair old new =>
    (old = .asked ∨ old = .found m) ∧ new = .asked ∨ old = .answered (some m) ∨
      old = .answered none ∧ pc ≠ .start ∧ (new = .asked ∨ new = .found m ∨ new = .answered (some m))
  | .target (.found k) =>
    ∀ old, r.entry a.toParent a.toName = some old → r.live old → (k = old ∨ k = m) ∧ r'.live k
  | reader => reader.Right r a m

theorem mem_whole_page (hreal : r.Tables DirState.Real) {d : NodeKey} {max : Nat}
    {listed : ReadDirPage} (h : r.readdir d 0 max = .ok listed) (heof : listed.eof) (x : Name)
    (k : NodeKey) : (x, k) ∈ listed.entries.map CEnt.link ↔ r.entry d x = some k := by
  obtain ⟨t, ht, -, rfl⟩ := readdir_ok h
  have hall : (t.listing.after 0).take max = t.ents := by
    rw [List.take_of_length_le (of_decide_eq_true heof)]
    refine List.filter_eq_self.mpr fun e he => decide_eq_true ?_
    exact Nat.lt_of_lt_of_le (by decide) ((hreal d t ht).2 e he)
  rw [hall, entry, ht, bind_some, map_eq_some_iff]
  constructor
  · intro hmem
    obtain ⟨e, he, hlink⟩ := List.mem_map.mp hmem
    obtain ⟨rfl, rfl⟩ := Prod.mk.inj hlink
    exact ⟨(e.node, e.kind), DirState.find_eq_some.mpr ⟨e, he, rfl, rfl, rfl⟩, rfl⟩
  · rintro ⟨⟨node, kind⟩, hfind, rfl⟩
    obtain ⟨e, he, rfl, rfl, rfl⟩ := DirState.find_eq_some.mp hfind
    exact List.mem_map.mpr ⟨e, he, rfl⟩

theorem Reader.Going.right (hg : reader.Going r a m r' pc) : reader.Right r a m := by
  cases reader with
  | pair old new =>
    cases new with
    | asked => trivial
    | found k => trivial
    | answered node =>
      rcases hg with ⟨-, hnew⟩ | hold | ⟨-, -, hnew⟩
      · cases hnew
      · exact .inl hold
      rcases hnew with hnew | hnew | hnew
      · cases hnew
      · cases hnew
      · exact .inr (Lookup.answered.inj hnew)
  | target l =>
    cases l with
    | found k => trivial
    | asked => trivial
    | answered node => exact hg
  | page max answer => exact hg

theorem Reader.Going.of_fresh (h : reader.fresh) : reader.Going r a m r' pc := by
  cases reader with
  | pair old new =>
    obtain ⟨hold, hnew⟩ := (Bool.and_eq_true ..).mp h
    exact .inl ⟨.inl (of_decide_eq_true hold), of_decide_eq_true hnew⟩
  | target l =>
    obtain rfl := of_decide_eq_true h
    trivial
  | page max answer =>
    obtain rfl := isNone_iff_eq_none.mp h
    trivial

structure System.Sound (r : ShareReplica) (a : Args) (m : NodeKey) (s : System) : Prop where
  phase : Phase r a m s.replica s.pc
  real : s.replica.Tables DirState.Real
  readers : ∀ reader ∈ s.readers, reader.Going r a m s.replica s.pc

section

variable (hx : r.entry a.fromParent a.fromName = some m) (hm : r.live m) (hq : r.isDir a.toParent)
  (hlink : a.fromParent = a.toParent → a.fromName ≠ a.toName → r.entry a.toParent a.toName ≠ some m)
include hx

theorem Phase.old (h : Phase r a m r' pc) : r'.entry a.fromParent a.fromName = some m ∨
      pc ≠ .start ∧ r'.entry a.fromParent a.fromName = none := by
  have hmoved : Moved a m r' → r'.entry a.fromParent a.fromName = some m ∨
      r'.entry a.fromParent a.fromName = none := by
    intro hmoved
    cases hold : r'.entry a.fromParent a.fromName with
    | none => exact .inr rfl
    | some k =>
      obtain ⟨hp, hname⟩ := hmoved.left k hold
      rw [hp, hname, hmoved.entry] at hold
      exact .inl hold.symm
  cases pc with
  | start => exact .inl ((show r' = r from h) ▸ hx)
  | taken node kind =>
    refine .inr ⟨Pc.noConfusion, ?_⟩
    rw [view_entry (take_view hx h.2)]
    exact if_pos ⟨rfl, rfl⟩
  | dropping todo node => exact (hmoved h.2).imp_right fun hnone => ⟨Pc.noConfusion, hnone⟩
  | done => exact (hmoved h).imp_right fun hnone => ⟨Pc.noConfusion, hnone⟩

theorem Phase.new (h : Phase r a m r' pc) :
    Moved a m r' ∨ (pc = .start ∨ pc.between) ∧ (∀ k, r.live k → r'.live k) ∧
      ((pc.between → ¬ (a.fromParent = a.toParent ∧ a.fromName = a.toName)) →
        r'.entry a.toParent a.toName = r.entry a.toParent a.toName) := by
  cases pc with
  | start =>
    obtain rfl : r' = r := h
    exact .inr ⟨.inl rfl, fun k hk => hk, fun _ => rfl⟩
  | taken node kind =>
    have hview := take_view hx h.2
    refine .inr ⟨.inr rfl, fun k hk => (view_live hview k).mpr hk, fun hne => ?_⟩
    rw [view_entry hview]
    exact if_neg fun hsame => hne rfl ⟨hsame.1.symm, hsame.2.symm⟩
  | dropping todo node => exact .inl h.2
  | done => exact .inl h

theorem Reader.Going.write (hg : reader.Going r a m r' pc)
    (h : Phase r a m r' pc) (hw : Rename.write a r' pc = some (r'', pc'))
    (hok : ∀ k todo node, pc = .dropping (.remove k :: todo) node → reader ≠ .target (.found k)) :
    reader.Going r a m r'' pc' := by
  have hpc' : pc' ≠ .start := by
    rintro rfl
    cases pc with
    | start =>
      rw [Rename.write] at hw
      split at hw <;> cases hw
    | taken node kind =>
      rw [Rename.write] at hw
      split at hw <;> cases hw
    | dropping todo node => rcases (dropping_step hw).1 with hpc | ⟨_, hpc⟩ <;> cases hpc
    | done => cases hw
  cases reader with
  | pair old new =>
    exact hg.imp_right fun hg => hg.imp_right fun hg => ⟨hg.1, hpc', hg.2.2⟩
  | target l =>
    cases l with
    | found k =>
      intro old hold hold'
      obtain ⟨hk, hklive⟩ := hg old hold hold'
      exact ⟨hk, write_live hx h hw hklive fun todo node hpc => hok k todo node hpc rfl⟩
    | asked => trivial
    | answered node => exact hg
  | page max answer => exact hg

include hlink

theorem Phase.page (h : Phase r a m r' pc) (hreal : r'.Tables DirState.Real) {max : Nat}
    (hpc : pc.between → a.fromParent ≠ a.toParent) :
    (Reader.page max (some (r'.readdir a.fromParent 0 max))).Right r a m := by
  cases hpage : r'.readdir a.fromParent 0 max with
  | error e => trivial
  | ok listed =>
    intro hp heof
    simp only [mem_whole_page hreal hpage heof]
    cases pc with
    | start =>
      obtain rfl : r' = r := h
      exact ⟨.inl hx, fun hne hboth => hlink hp hne (hp ▸ hboth.2)⟩
    | taken node kind => exact absurd hp (hpc rfl)
    | dropping todo node =>
      exact ⟨.inr (hp ▸ h.2.entry), fun hne hboth => hne (h.2.left m hboth.1).2⟩
    | done =>
      exact ⟨.inr (hp ▸ Moved.entry h), fun hne hboth => hne (Moved.left h m hboth.1).2⟩

include hm

theorem Reader.Going.read (hg : reader.Going r a m r' pc)
    (h : Phase r a m r' pc) (hreal : r'.Tables DirState.Real)
    (hok : pc.between → ¬ reader.exposed a) : (reader.read r' a).Going r a m r' pc := by
  have hlive := h.live hx hm
  cases reader with
  | pair old new =>
    rcases hg with ⟨hold, rfl⟩ | rfl | ⟨rfl, hpc, hnew⟩
    · rcases hold with rfl | rfl
      · rcases h.old hx with hfound | ⟨hpc, hnone⟩
        · simp [Reader.read, Lookup.read, hfound, Reader.Going]
        · simp [Reader.read, Lookup.read, hnone, Reader.Going, hpc]
      · simp [Reader.read, Lookup.read, hlive, Reader.Going]
    · exact .inr (.inl rfl)
    · refine .inr (.inr ⟨rfl, hpc, ?_⟩)
      rcases hnew with rfl | rfl | rfl
      · rcases h.new hx with hmoved | ⟨hbefore, -, -⟩
        · exact .inr (.inl (by rw [Lookup.read, hmoved.entry]))
        · exact absurd rfl (hok (hbefore.resolve_left hpc))
      · exact .inr (.inr (by rw [Lookup.read, if_pos hlive]))
      · exact .inr (.inr rfl)
  | target l =>
    cases l with
    | asked =>
      have hname : pc.between → ¬ (a.fromParent = a.toParent ∧ a.fromName = a.toName) := by
        intro hpc hsame
        exact hok hpc (by simp [Reader.exposed, hsame])
      rw [Reader.read, Lookup.read]
      rcases h.new hx with hmoved | ⟨-, hstay, hentry⟩
      · rw [hmoved.entry]
        exact fun _ _ _ => ⟨.inr rfl, hlive⟩
      rw [hentry hname]
      cases hname : r.entry a.toParent a.toName with
      | none =>
        intro old hold
        rw [hname] at hold
        cases hold
      | some k =>
        intro old hold hlive'
        obtain rfl : k = old := mem_unique hname hold
        exact ⟨.inl rfl, hstay k hlive'⟩
    | found k =>
      intro old hold hold'
      obtain ⟨hk, hklive⟩ := hg old hold hold'
      rw [if_pos hklive]
      exact hk.imp (congrArg some) (congrArg some)
    | answered node => exact hg
  | page max answer =>
    cases answer with
    | none => exact h.page hx hlink hreal fun hpc hp => hok hpc (by simp [Reader.exposed, hp])
    | some answer => exact hg

include hq

theorem System.Sound.step {s s' : System} {mv : Move} (h : s.Sound r a m)
    (hok : s.apart a mv) (hs : s.step a mv = some s') : s'.Sound r a m := by
  cases mv with
  | write =>
    obtain ⟨⟨r'', pc'⟩, hw, rfl⟩ := map_eq_some_iff.mp hs
    have hgone : ∀ k todo node, s.pc = .dropping (.remove k :: todo) node →
        (k ≠ a.toParent ∧ k ≠ node) ∧ .target (.found k) ∉ s.readers := by
      intro k todo node hpc
      simpa [System.apart, hpc] using hok
    refine ⟨h.phase.write hx hm hq (fun k todo node hpc => (hgone k todo node hpc).1) hw,
      write_real h.real hw, fun reader hreader => ?_⟩
    refine (h.readers reader hreader).write hx h.phase hw fun k todo node hpc hfound => ?_
    exact (hgone k todo node hpc).2 (hfound ▸ hreader)
  | spawn reader =>
    obtain ⟨hfresh, rfl⟩ := ite_some_none_eq_some.mp hs
    exact ⟨h.phase, h.real, forall_concat h.readers (.of_fresh hfresh)⟩
  | read i =>
    obtain ⟨reader, hi, rfl⟩ := map_eq_some_iff.mp hs
    refine ⟨h.phase, h.real, fun other hother => ?_⟩
    rcases List.mem_or_eq_of_mem_set hother with hother | rfl
    · exact h.readers other hother
    · refine (h.readers reader (List.mem_of_getElem? hi)).read hx hm hlink h.phase h.real ?_
      intro hpc hexposed
      simp [System.apart, hi, hpc, hexposed] at hok

end

end

/-- Every reader that ran while the record was applied was told of the moved node. -/
theorem rename_seen (info : ShareInfo) (r : ShareReplica)
    (hr : Runs.Reaches feedValid (fun _ _ => True) (.new info) r) (a : Args) (m : NodeKey)
    (hx : r.entry a.fromParent a.fromName = some m) (hm : r.live m) (hq : r.isDir a.toParent)
    (hlink : a.fromParent = a.toParent → a.fromName ≠ a.toName →
      r.entry a.toParent a.toName ≠ some m)
    (s : System) (h : Runs.Reaches (System.step a) (fun s mv => s.apart a mv) ⟨r, .start, []⟩ s) :
    ∀ reader ∈ s.readers, reader.Right r a m := by
  have hreal : r.Tables DirState.Real := by
    refine hr.inv (new_real info) fun r f r' hreal _ hf => ?_
    obtain ⟨-, hf⟩ := ite_none_right_eq_some.mp hf
    exact feed_real hreal hf
  have hsound : s.Sound r a m := by
    refine h.inv ⟨rfl, hreal, nofun⟩ fun s mv s' hs hok hs' => ?_
    exact hs.step hx hm hq hlink hok hs'
  exact fun reader hreader => (hsound.readers reader hreader).right

def overwriting : Args := ⟨⟨2, 1⟩, .letter 'a', ⟨2, 1⟩, .letter 'b'⟩

/-- A look-up of the name that is replaced before the record, one of both names that does not find
the old one any more, and a page after it. -/
theorem rename_seen_overwriting :
    ∃ (r : ShareReplica) (s : System),
      Runs.Reaches feedValid (fun _ _ => True) (.new ⟨⟨1⟩, ⟨2, 1⟩⟩) r ∧
      Runs.Reaches (System.step overwriting) (fun s mv => s.apart overwriting mv)
        ⟨r, .start, []⟩ s ∧ s.pc = .done ∧
      s.readers.take 2 = [.target (.answered (some ⟨4, 1⟩)),
        .pair (.answered none) (.answered (some ⟨3, 1⟩))] ∧ s.readers.length = 3 ∧
      ∀ reader ∈ s.readers, reader.Right r overwriting ⟨3, 1⟩ := by
  let moves : List Move :=
    [.spawn (.target .asked), .read 0, .read 0, .spawn (.pair .asked .asked), .write, .read 1, .write,
     .read 1, .write, .write, .write, .read 1, .spawn (.page 10 none), .read 2]
  have hrun : ∃ r, Reaches feedValid (fun _ _ => True) (.new ⟨⟨1⟩, ⟨2, 1⟩⟩) r ∧
      (r.entry ⟨2, 1⟩ (.letter 'a') = some ⟨3, 1⟩ ∧ r.live ⟨3, 1⟩ ∧ r.isDir ⟨2, 1⟩ ∧
        r.entry ⟨2, 1⟩ (.letter 'b') ≠ some ⟨3, 1⟩) ∧
      (moves.foldlM (fun (s : System) mv =>
        if s.apart overwriting mv then s.step overwriting mv else none)
        ⟨r, .start, []⟩).any fun s => s.pc = .done ∧
          s.readers.take 2 = [.target (.answered (some ⟨4, 1⟩)),
            .pair (.answered none) (.answered (some ⟨3, 1⟩))] ∧ s.readers.length = 3 :=
    exists_of_guarded
      [.listing ⟨1⟩ ⟨2, 1⟩ ⟨2, 1⟩ [(.letter 'a', ⟨3, 1⟩, .reg), (.letter 'b', ⟨4, 1⟩, .reg)]]
      (by decide +kernel)
  obtain ⟨r, hr, ⟨hx, hm, hq, hlink⟩, hmoves⟩ := hrun
  obtain ⟨s, hs, hdone, hreaders, hlength⟩ := exists_of_guarded moves hmoves
  exact ⟨r, s, hr, hs, hdone, hreaders, hlength,
    rename_seen ⟨⟨1⟩, ⟨2, 1⟩⟩ r hr overwriting ⟨3, 1⟩ hx hm hq (fun _ _ => hlink) s hs⟩

/-- Between the two changes neither name leads to the moved node; a node that is replaced is removed
before the look-up that found it reads it. -/
theorem rename_seen_between :
    ∃ (r : ShareReplica) (s : System),
      Runs.Reaches feedValid (fun _ _ => True) (.new ⟨⟨1⟩, ⟨2, 1⟩⟩) r ∧
      r.entry ⟨2, 1⟩ (.letter 'a') = some ⟨3, 1⟩ ∧ r.live ⟨3, 1⟩ ∧
      r.entry ⟨2, 1⟩ (.letter 'b') = some ⟨4, 1⟩ ∧ r.live ⟨4, 1⟩ ∧ r.isDir ⟨2, 1⟩ ∧
      Runs.Reaches (System.step overwriting) (fun _ _ => True) ⟨r, .start, []⟩ s ∧
      s.readers.length = 3 ∧ ∀ reader ∈ s.readers, ¬ reader.Right r overwriting ⟨3, 1⟩ := by
  let moves : List Move :=
    [.spawn (.target .asked), .read 0, .spawn (.pair .asked .asked), .spawn (.page 10 none), .write,
     .read 1, .read 1, .read 1, .read 2, .write, .write, .write, .read 0, .write]
  have hrun : ∃ r, Reaches feedValid (fun _ _ => True) (.new ⟨⟨1⟩, ⟨2, 1⟩⟩) r ∧
      (r.entry ⟨2, 1⟩ (.letter 'a') = some ⟨3, 1⟩ ∧ r.live ⟨3, 1⟩ ∧
        r.entry ⟨2, 1⟩ (.letter 'b') = some ⟨4, 1⟩ ∧ r.live ⟨4, 1⟩ ∧ r.isDir ⟨2, 1⟩) ∧
      (moves.foldlM (System.step overwriting) ⟨r, .start, []⟩).any fun s =>
        s.readers = [.target (.answered none), .pair (.answered none) (.answered (some ⟨4, 1⟩)),
          .page 10 (some (.ok ⟨[⟨4, .letter 'b', ⟨4, 1⟩, .reg⟩], true, 3⟩))] :=
    exists_of_guarded
      [.listing ⟨1⟩ ⟨2, 1⟩ ⟨2, 1⟩ [(.letter 'a', ⟨3, 1⟩, .reg), (.letter 'b', ⟨4, 1⟩, .reg)]]
      (by decide +kernel)
  obtain ⟨r, hr, ⟨hx, hm, hy, hold, hq⟩, hmoves⟩ := hrun
  obtain ⟨s, hs, hreaders⟩ := (any_eq_true ..).mp hmoves
  replace hreaders := of_decide_eq_true hreaders
  refine ⟨r, s, hr, hx, hm, hy, hold, hq, .of_foldlM moves hs, by rw [hreaders]; rfl, ?_⟩
  rw [hreaders]
  intro reader hreader
  rcases List.mem_cons.mp hreader with rfl | hreader
  · intro hright
    rcases hright ⟨4, 1⟩ hy hold with h | h <;> cases h
  rcases List.mem_cons.mp hreader with rfl | hreader
  · intro hright
    rcases hright with h | h <;> cases h
  · rw [List.mem_singleton.mp hreader]
    intro hright
    exact absurd (hright rfl rfl).1 (by decide)

end Mist.Rename
