import Mathlib.Data.Option.Basic
import Mist.Compact.Packing
import Mist.Compact.Replica

/-! The replica over compact tables refines the replica over lists of entries. -/

namespace Mist

open List KeyMap Counting Finmap

namespace ShareReplica

theorem forget_setShards (r : ShareReplica) (m : KeyMap NodeKey Node) (gone : NodeKey × Node) :
    { r with shards := m }.forget gone = { r.forget gone with shards := m } := by
  unfold forget
  cases gone.2.hasSide <;> cases gone.2.dir <;> rfl

theorem foldl_forget_setShards (l : List (NodeKey × Node)) (r : ShareReplica)
    (m : KeyMap NodeKey Node) :
    l.foldl forget { r with shards := m } = { l.foldl forget r with shards := m } :=
  foldl_hom (fun r => { r with shards := m }) fun r g => forget_setShards r m g

theorem settle_settle (r : ShareReplica) (c c' : KeyMap NodeKey Node × List (NodeKey × Node)) :
    (r.settle c).settle c' = r.settle (c'.1, c.2 ++ c'.2) := by
  show c'.2.foldl forget { c.2.foldl forget { r with shards := c.1 } with shards := c'.1 } =
    (c.2 ++ c'.2).foldl forget { r with shards := c'.1 }
  rw [foldl_append, foldl_forget_setShards c.2 r c.1, foldl_forget_setShards c.2 r c'.1]

theorem foldl_linkDec_eq (l : List NodeKey) (r : ShareReplica) :
    l.foldl linkDec r = r.settle (Node.counting.collect r.root r.shards l) := by
  induction l generalizing r with
  | nil =>
    rw [collect]
    rfl
  | cons k l ih =>
    have hroot : (r.linkDec k).root = r.root := by rw [root, linkDec_info, root]
    rw [foldl_cons, ih, hroot, linkDec_shards, ← singleton_append (l := l), collect_append]
    exact settle_settle ..

variable {r : ShareReplica} {k : NodeKey} {n : Node}

theorem linkDec_absent (hk : r.shards.lookup k = none) : r.linkDec k = r := by
  rw [linkDec, collect_absent hk]
  rfl

section

variable (hk : r.shards.lookup k = some n)
include hk

theorem linkDec_stays (h : ¬ (n.links - 1 = 0 ∧ k ≠ r.root)) :
    r.linkDec k = { r with shards := r.shards.insert k { n with links := n.links - 1 } } := by
  rw [linkDec, collect_stays hk h]
  rfl

theorem linkDec_goes (h : n.links - 1 = 0 ∧ k ≠ r.root) :
    r.linkDec k = n.targets.foldl linkDec { r.forget (k, n) with shards := r.shards.erase k } := by
  have hroot : root { r.forget (k, n) with shards := r.shards.erase k } = r.root :=
    congrArg ShareInfo.root (forget_info r (k, n))
  rw [linkDec, collect_goes hk h, foldl_linkDec_eq, hroot, settle, settle, foldl_cons,
    forget_setShards]
  rfl

theorem forceRemove_goes :
    r.forceRemove k = n.targets.foldl linkDec
      { (r.modifyNode k fun n => { n with links := 0 }).forget (k, { n with links := 0 }) with
        shards := r.shards.erase k } := by
  have hroot : root { (r.modifyNode k fun n => { n with links := 0 }).forget
      (k, { n with links := 0 }) with shards := r.shards.erase k } = r.root :=
    congrArg ShareInfo.root ((forget_info ..).trans (modifyNode_info ..))
  rw [forceRemove_eq hk, foldl_linkDec_eq, hroot]
  rfl

end

end ShareReplica

namespace Compact

open Returns (Meets)

def Node.abs (n : Node) (t : Option Mist.DirState) : Mist.Node where
  size := n.size
  blocks := n.blocks
  contentVersion := n.contentVersion
  mtime := n.mtime
  ctime := n.ctime
  parent := n.parent
  nlink := n.nlink
  uid := n.uid
  gid := n.gid
  links := n.links
  mode := n.mode
  kind := n.kind
  hasSide := n.hasSide
  dir := t

structure NodeSim (hash : List UInt8 → UInt64) (n : Node) (m : Mist.Node) : Prop where
  fields : m = n.abs m.dir
  table : Option.Rel (Represents hash) n.dir m.dir

/-- The same replica, with counters that are exact; `extra` dentries more than there are are counted,
while a change is under way. -/
structure Simulates (hash : List UInt8 → UInt64) (extra : Int) (c : ShareReplica)
    (r : Mist.ShareReplica) : Prop where
  info : c.info = r.info
  state : c.state = r.state
  shards : ∀ k, Option.Rel (NodeSim hash) (c.shards.lookup k) (r.shards.lookup k)
  pending : c.pending = r.pending
  symlinks : c.symlinks = r.symlinks
  rdevs : c.rdevs = r.rdevs
  nodes : c.nodes = c.size
  dirs : c.dirs = c.shards.total Node.tables
  entries : (c.entries : Int) = (c.shards.total fun n => n.live.length) + extra

def ShareReplica.dropped (c : ShareReplica) (k : NodeKey) (n : Node) : ShareReplica :=
  { (if n.hasSide then c.dropSide k else c) with
    shards := c.shards.erase k, nodes := c.nodes - 1, dirs := c.dirs - n.tables }

section

variable {hash : List UInt8 → UInt64} {n : Node} {m : Mist.Node}

section

variable (h : NodeSim hash n m)
include h

theorem NodeSim.links : m.links = n.links := congrArg Mist.Node.links h.fields

theorem NodeSim.hasSide : m.hasSide = n.hasSide := congrArg Mist.Node.hasSide h.fields

theorem NodeSim.tableless (hd : n.dir = none) : m.dir = none := by
  have := h.table
  rw [hd] at this
  cases hm : m.dir with
  | none => rfl
  | some t =>
    rw [hm] at this
    cases this

theorem NodeSim.tabled {d : DirState} (hd : n.dir = some d) :
    ∃ t, m.dir = some t ∧ Represents hash d t := by
  have := h.table
  rw [hd] at this
  cases hm : m.dir with
  | none =>
    rw [hm] at this
    cases this
  | some t =>
    rw [hm] at this
    cases this with
    | some hrep => exact ⟨t, rfl, hrep⟩

end

theorem Represents.children {d : DirState} {t : Mist.DirState} (h : Represents hash d t) :
    d.live.map CEnt.node = t.children := by
  have := congrArg (map fun p : Nat × List UInt8 × NodeKey × Kind => p.2.2.1) h.image
  rw [map_map, map_map] at this
  exact this

theorem NodeSim.children (h : NodeSim hash n m) : n.live.map CEnt.node = m.targets := by
  cases hd : n.dir with
  | none =>
    rw [Node.live, hd, Mist.Node.targets, h.tableless hd]
    rfl
  | some d =>
    obtain ⟨t, ht, hrep⟩ := h.tabled hd
    rw [Node.live, hd, Mist.Node.targets, ht]
    exact hrep.children

theorem NodeSim.refresh (h : NodeSim hash n m) (a : Attr) (p : NodeKey) (side : Bool) :
    NodeSim hash (n.refresh a p side) (m.refresh a p side) := by
  obtain ⟨t, rfl⟩ : ∃ t, m = n.abs t := ⟨m.dir, h.fields⟩
  refine ⟨rfl, ?_⟩
  show Option.Rel _ (if _ then _ else n.dir) (if _ then _ else t)
  have ht : n.dir = none ↔ t = none := by
    cases hd : n.dir with
    | none =>
      have : t = none := h.tableless hd
      simp [this]
    | some d =>
      obtain ⟨t', ht', -⟩ := h.tabled hd
      have : t = some t' := ht'
      simp [this]
  by_cases hnew : a.kind = .dir ∧ n.dir = none
  · rw [if_pos hnew, if_pos ⟨hnew.1, ht.mp hnew.2⟩]
    exact .some Represents.new
  · rw [if_neg hnew, if_neg fun ht' => hnew ⟨ht'.1, ht.mpr ht'.2⟩]
    exact h.table

theorem NodeSim.create (a : Attr) (p : NodeKey) (side : Bool) :
    NodeSim hash (Node.create a p side) (Mist.Node.create a p side) := by
  refine ⟨rfl, ?_⟩
  show Option.Rel _ (if _ then _ else _) (if _ then _ else _)
  split
  · exact .some Represents.new
  · exact .none

theorem NodeSim.of_table {n' : Node} {m' : Mist.Node} (h : NodeSim hash n m)
    (hn : n'.dir = n.dir) (hm : m' = n'.abs m.dir) : NodeSim hash n' m' := by
  refine ⟨by rw [hm]; rfl, ?_⟩
  rw [hn, hm]
  exact h.table

theorem NodeSim.setTable (h : NodeSim hash n m) {d : Option DirState} {t : Option Mist.DirState}
    (hrel : Option.Rel (Represents hash) d t) :
    NodeSim hash { n with dir := d } { m with dir := t } := by
  obtain ⟨t', rfl⟩ : ∃ t, m = n.abs t := ⟨m.dir, h.fields⟩
  exact ⟨rfl, hrel⟩

theorem NodeSim.setLinks (h : NodeSim hash n m) {l l' : Nat} (hl : l' = l) :
    NodeSim hash { n with links := l } { m with links := l' } := by
  obtain ⟨t, rfl⟩ : ∃ t, m = n.abs t := ⟨m.dir, h.fields⟩
  rw [hl]
  exact h.of_table rfl rfl

end

namespace Simulates

variable {hash : List UInt8 → UInt64} {extra : Int} {c : ShareReplica} {r : Mist.ShareReplica}
  {k : NodeKey} {n n' : Node} {m m' : Mist.Node}

theorem new (hash : List UInt8 → UInt64) (info : ShareInfo) : Simulates hash 0 (.new info) (.new info) where
  info := rfl
  state := rfl
  shards _ := .none
  pending := rfl
  symlinks := rfl
  rdevs := rfl
  nodes := rfl
  dirs := rfl
  entries := rfl

section

variable (h : Simulates hash extra c r)
include h

theorem absent (hk : c.shards.lookup k = none) : r.shards.lookup k = none := by
  have := h.shards k
  rw [hk] at this
  cases hr : r.shards.lookup k with
  | none => rfl
  | some m =>
    rw [hr] at this
    cases this

theorem known (hk : c.shards.lookup k = some n) :
    ∃ m, r.shards.lookup k = some m ∧ NodeSim hash n m := by
  have := h.shards k
  rw [hk] at this
  cases hr : r.shards.lookup k with
  | none =>
    rw [hr] at this
    cases this
  | some m =>
    rw [hr] at this
    cases this with
    | some hsim => exact ⟨m, rfl, hsim⟩

theorem live (k : NodeKey) : c.live k = r.live k := by
  cases hk : c.shards.lookup k with
  | none =>
    rw [ShareReplica.live, Mist.ShareReplica.live, hk, h.absent hk]
    rfl
  | some n =>
    obtain ⟨m, hm, -⟩ := h.known hk
    rw [ShareReplica.live, Mist.ShareReplica.live, hk, hm]
    rfl

theorem stored (hsim : NodeSim hash n' m') {nodes dirs : Nat} {extra' : Int}
    (hnodes : nodes = total (fun _ => 1) (c.shards.insert k n'))
    (hdirs : dirs = total Node.tables (c.shards.insert k n'))
    (hentries : (c.entries : Int) =
      (total (fun n => n.live.length) (c.shards.insert k n') : Nat) + extra')
    (nodes' dirs' : UInt64) :
    Simulates hash extra' { c with shards := c.shards.insert k n', nodes, dirs }
      { r with shards := r.shards.insert k m', nodes := nodes', dirs := dirs' } := { h with
  nodes := hnodes
  dirs := hdirs
  entries := hentries
  shards := fun j => by
    rw [lookup_insert_ite, lookup_insert_ite]
    split
    · exact .some hsim
    · exact h.shards j }

theorem put (hk : c.shards.lookup k = some n) (hsim : NodeSim hash n' m') (dirs : Nat)
    (hdirs : dirs + n.tables = c.dirs + n'.tables) (dirs' : UInt64) :
    Simulates hash (extra + n.live.length - n'.live.length)
      { c with shards := c.shards.insert k n', dirs }
      { r with shards := r.shards.insert k m', dirs := dirs' } := by
  have hold := fun f => total_insert_old f n' hk
  have h1 : c.nodes = total (fun _ => 1) c.shards := h.nodes
  have h2 := h.dirs
  have h3 := h.entries
  have := hold fun _ => 1
  have := hold Node.tables
  have := hold fun n => n.live.length
  exact h.stored hsim (by omega) (by omega) (by omega) r.nodes dirs'

theorem putNew (hk : c.shards.lookup k = none)
    (hsim : NodeSim hash n' m') (hlive : n'.live = []) (dirs' nodes' : UInt64) :
    Simulates hash extra
      { c with shards := c.shards.insert k n', dirs := c.dirs + n'.tables, nodes := c.nodes + 1 }
      { r with shards := r.shards.insert k m', dirs := dirs', nodes := nodes' } := by
  have hnew := fun f => total_insert_new f n' hk
  have h1 : c.nodes = total (fun _ => 1) c.shards := h.nodes
  have h2 := h.dirs
  have h3 := h.entries
  have := hnew fun _ => 1
  have := hnew Node.tables
  have hlength := hnew fun n => n.live.length
  rw [hlive, length_nil] at hlength
  exact h.stored hsim (by omega) (by omega) (by omega) nodes' dirs'

theorem modify (k : NodeKey) {f : Node → Node} {g : Mist.Node → Mist.Node}
    (hdir : ∀ n, (f n).dir = n.dir) (hfields : ∀ n t, g (n.abs t) = (f n).abs t) :
    Simulates hash extra (c.modifyNode k f) (r.modifyNode k g) := by
  cases hk : c.shards.lookup k with
  | none =>
    rw [ShareReplica.modifyNode, hk, Mist.ShareReplica.modifyNode, h.absent hk]
    exact h
  | some n =>
    obtain ⟨m, hm, hsim⟩ := h.known hk
    have hlive : (f n).live = n.live := by rw [Node.live, hdir, Node.live]
    have htables : (f n).tables = n.tables := by rw [Node.tables, hdir, Node.tables]
    have hnew : NodeSim hash (f n) (g m) :=
      hsim.of_table (hdir n) (by conv_lhs => rw [hsim.fields, hfields])
    have hput := h.put hk hnew c.dirs (by rw [htables]) r.dirs
    rw [hlive, Int.add_sub_cancel] at hput
    rw [ShareReplica.modifyNode, hk, Mist.ShareReplica.modifyNode, hm]
    exact hput

theorem noteSide (k : NodeKey) (a : Attr) :
    Simulates hash extra (c.noteSide k a).1 (r.noteSide k a).1 := { h with
  symlinks := by
    rw [ShareReplica.noteSide, Mist.ShareReplica.noteSide]
    cases a.symlinkTarget with
    | none => exact h.symlinks
    | some t => exact congrArg (insert k t) h.symlinks
  rdevs := by simp only [ShareReplica.noteSide, Mist.ShareReplica.noteSide, h.rdevs] }

theorem upsertNode (k : NodeKey) (a : Attr) (p : NodeKey) :
    Simulates hash extra (c.upsertNode k a p) (r.upsertNode k a p) := by
  have hside := h.noteSide k a
  cases hk : c.shards.lookup k with
  | none =>
    have hlive : (Node.create a p (c.noteSide k a).2).live = [] := by
      by_cases ha : a.kind = .dir <;>
        simp [Node.create, Node.setAttr, Node.live, DirState.live, DirState.new, ha]
    have hdirs : (if a.kind = .dir then c.dirs + 1 else c.dirs) =
        c.dirs + (Node.create a p (c.noteSide k a).2).tables := by
      by_cases ha : a.kind = .dir <;> simp [Node.create, Node.setAttr, Node.tables, ha]
    have hnew := hside.putNew hk (NodeSim.create a p (c.noteSide k a).2) hlive
    have hc : c.upsertNode k a p =
        { (c.noteSide k a).1 with
          shards := c.shards.insert k (Node.create a p (c.noteSide k a).2)
          dirs := c.dirs + (Node.create a p (c.noteSide k a).2).tables
          nodes := c.nodes + 1 } := by
      have hk' : (c.noteSide k a).1.shards.lookup k = none := hk
      simp only [ShareReplica.upsertNode, hk', ← hdirs]
      rfl
    have hr : (r.noteSide k a).1.shards.lookup k = none := h.absent hk
    rw [hc]
    simp only [Mist.ShareReplica.upsertNode, hr]
    exact hnew _ _
  | some n =>
    obtain ⟨m, hm, hsim⟩ := h.known hk
    have hlive : (n.refresh a p (c.noteSide k a).2).live = n.live := by
      by_cases ha : a.kind = .dir ∧ n.dir = none
      · simp [Node.refresh, Node.live, DirState.live, DirState.new, ha.1, ha.2]
      · simp only [Node.refresh, Node.live, if_neg ha]
    have hdirs : (if a.kind = .dir ∧ n.dir = none then c.dirs + 1 else c.dirs) + n.tables =
        c.dirs + (n.refresh a p (c.noteSide k a).2).tables := by
      by_cases ha : a.kind = .dir ∧ n.dir = none
      · simp [Node.refresh, Node.tables, ha.1, ha.2]
      · simp only [Node.refresh, Node.tables, if_neg ha]
    have hput := hside.put hk (hsim.refresh a p (c.noteSide k a).2) _ hdirs
    rw [hlive, Int.add_sub_cancel] at hput
    have hc : c.upsertNode k a p =
        { (c.noteSide k a).1 with
          shards := c.shards.insert k (n.refresh a p (c.noteSide k a).2)
          dirs := if a.kind = .dir ∧ n.dir = none then c.dirs + 1 else c.dirs } := by
      have hk' : (c.noteSide k a).1.shards.lookup k = some n := hk
      simp only [ShareReplica.upsertNode, hk']
      rfl
    have hr : (r.noteSide k a).1.shards.lookup k = some m := hm
    rw [hc]
    simp only [Mist.ShareReplica.upsertNode, hr]
    exact hput _

theorem recount (delta : Int) : Simulates hash extra c (r.entriesAdd delta) := by
  unfold Mist.ShareReplica.entriesAdd
  split
  · exact { h with }
  · exact { h with }

theorem entriesAdd (delta : Int) (hpos : 0 ≤ extra + delta) :
    ∃ c', c.entriesAdd delta = .ok c' ∧ c'.shards = c.shards ∧
      Simulates hash (extra + delta) c' r := by
  have hcount := h.entries
  have hnew : ∀ entries : Nat, (entries : Int) = c.entries + delta →
      Simulates hash (extra + delta) { c with entries } r := by
    intro entries he
    refine { h with entries := ?_ }
    show (entries : Int) = (c.shards.total fun n => n.live.length) + (extra + delta)
    omega
  by_cases hd : 0 ≤ delta
  · refine ⟨{ c with entries := c.entries + delta.toNat }, if_pos hd, rfl, hnew _ ?_⟩
    omega
  have hle : (-delta).toNat ≤ c.entries := by omega
  refine ⟨{ c with entries := c.entries - (-delta).toNat }, ?_, rfl, hnew _ ?_⟩
  · rw [ShareReplica.entriesAdd, if_neg hd, sub, if_pos hle]
    rfl
  · omega

theorem linkInc (k : NodeKey) :
    Meets (· = Stop.limit) (c.linkInc k) fun c' => Simulates hash extra c' (r.linkInc k) := by
  have hmod := h.modify k (f := fun n => { n with links := n.links + 1 })
    (g := fun n => { n with links := n.links + 1 }) (fun _ => rfl) (fun _ _ => rfl)
  cases hk : c.shards.lookup k with
  | none =>
    rw [ShareReplica.modifyNode, hk] at hmod
    rw [ShareReplica.linkInc, hk]
    exact hmod
  | some n =>
    rw [ShareReplica.modifyNode, hk] at hmod
    rw [ShareReplica.linkInc, hk]
    exact .ite (fun _ => rfl) fun _ => hmod

theorem setParent (k p : NodeKey) : Simulates hash extra (c.setParent k p) (r.setParent k p) :=
  h.modify k (fun _ => rfl) (fun _ _ => rfl)

theorem updateAttr (k : NodeKey) (a : Attr) :
    Simulates hash extra (c.updateAttr k a).1 (r.updateAttr k a).1 :=
  (h.noteSide k a).modify k (fun _ => rfl) (fun _ _ => rfl)

theorem updateContent (k : NodeKey) (version size : UInt64) (mtime : Ts) :
    Simulates hash extra (c.updateContent k version size mtime).1
      (r.updateContent k version size mtime).1 :=
  h.modify k (fun _ => rfl) (fun _ _ => rfl)

theorem setPending (pending : KeyMap NodeKey (List Pending)) :
    Simulates hash extra { c with pending } { r with pending } :=
  { h with pending := rfl }

theorem stashPending (k : NodeKey) (p : Pending) :
    Simulates hash extra (c.stashPending k p) (r.stashPending k p) := by
  rw [ShareReplica.stashPending, Mist.ShareReplica.stashPending, h.pending]
  exact h.setPending _

theorem drainPending (k : NodeKey) :
    Simulates hash extra (c.drainPending k) (r.drainPending k) := by
  rw [ShareReplica.drainPending, Mist.ShareReplica.drainPending, h.pending]
  cases r.pending.lookup k with
  | none => exact h
  | some items =>
    refine foldl_rel (r := Simulates hash extra) (h.setPending _) fun p _ c r h => ?_
    cases p with
    | attr a => exact h.updateAttr k a
    | content version size mtime => exact h.updateContent k version size mtime

theorem removeNode_eq (hk : c.shards.lookup k = some n)
    (dec : ShareReplica → NodeKey → Except Stop ShareReplica) :
    c.removeNode dec k = n.live.foldlM (fun c e => do
      let c ← c.entriesAdd (-1)
      dec c e.node) (c.dropped k n) := by
  have hnodes : 1 ≤ c.nodes := by
    rw [h.nodes]
    exact le_total (fun _ => 1) hk
  have hdirs : n.tables ≤ c.dirs := by
    rw [h.dirs]
    exact le_total Node.tables hk
  rw [ShareReplica.removeNode, hk]
  show (sub c.nodes 1 >>= fun nodes => _) = _
  rw [sub, if_pos hnodes]
  cases hd : n.dir with
  | none =>
    have htables : n.tables = 0 := by rw [Node.tables, hd]; rfl
    rw [Node.live, hd, ShareReplica.dropped, htables]
    cases n.hasSide <;> rfl
  | some d =>
    have htables : n.tables = 1 := by rw [Node.tables, hd]; rfl
    rw [htables] at hdirs
    rw [Node.live, hd, ShareReplica.dropped, htables]
    cases n.hasSide with
    | false =>
      show (sub c.dirs 1 >>= fun dirs => _) = _
      rw [sub, if_pos hdirs]
      rfl
    | true =>
      show (sub c.dirs 1 >>= fun dirs => _) = _
      rw [sub, if_pos hdirs]
      rfl

theorem dropped (hk : c.shards.lookup k = some n) (hsim : NodeSim hash n m) :
    Simulates hash (extra + n.live.length) (c.dropped k n)
      { r.forget (k, m) with shards := r.shards.erase k } where
  info := by
    show (if n.hasSide then c.dropSide k else c).info = (r.forget (k, m)).info
    rw [Mist.ShareReplica.forget_info, ← h.info]
    cases n.hasSide <;> rfl
  state := by
    show (if n.hasSide then c.dropSide k else c).state = (r.forget (k, m)).state
    rw [Mist.ShareReplica.forget_state, ← h.state]
    cases n.hasSide <;> rfl
  shards j := by
    show Option.Rel _ ((c.shards.erase k).lookup j) ((r.shards.erase k).lookup j)
    rw [lookup_erase_ite, lookup_erase_ite]
    split
    · exact .none
    · exact h.shards j
  pending := by
    show (if n.hasSide then c.dropSide k else c).pending = (r.forget (k, m)).pending
    rw [Mist.ShareReplica.forget_pending, ← h.pending]
    cases n.hasSide <;> rfl
  symlinks := by
    show (if n.hasSide then c.dropSide k else c).symlinks = (r.forget (k, m)).symlinks
    rw [Mist.ShareReplica.forget_symlinks, hsim.hasSide, ← h.symlinks]
    cases n.hasSide <;> rfl
  rdevs := by
    show (if n.hasSide then c.dropSide k else c).rdevs = (r.forget (k, m)).rdevs
    rw [Mist.ShareReplica.forget_rdevs, hsim.hasSide, ← h.rdevs]
    cases n.hasSide <;> rfl
  nodes := by
    have h1 : c.nodes = total (fun _ => 1) c.shards := h.nodes
    have h2 := total_erase (fun _ => 1) hk
    show c.nodes - 1 = total (fun _ => 1) (c.shards.erase k)
    omega
  dirs := by
    have h1 := h.dirs
    have h2 := total_erase Node.tables hk
    show c.dirs - n.tables = total Node.tables (c.shards.erase k)
    omega
  entries := by
    have h1 := h.entries
    have h2 := total_erase (fun n : Node => n.live.length) hk
    have h3 : (c.dropped k n).entries = c.entries := by
      rw [ShareReplica.dropped]
      cases n.hasSide <;> rfl
    show ((c.dropped k n).entries : Int) =
      (total (fun n => n.live.length) (c.shards.erase k) : Nat) + _
    omega

end

theorem foldlM_children {dec : ShareReplica → NodeKey → Except Stop ShareReplica} (bound : Nat)
    (hextra : 0 ≤ extra)
    (hdec : ∀ extra c r j, 0 ≤ extra → Simulates hash extra c r → c.size ≤ bound →
      Meets (· = Stop.limit) (dec c j) fun c' =>
        Simulates hash extra c' (r.linkDec j) ∧ c'.size ≤ c.size)
    (l : List CEnt) (h : Simulates hash (extra + l.length) c r) (hsize : c.size ≤ bound) :
    Meets (· = Stop.limit) (l.foldlM (fun c e => do
        let c ← c.entriesAdd (-1)
        dec c e.node) c) fun c' =>
      Simulates hash extra c' ((l.map CEnt.node).foldl Mist.ShareReplica.linkDec r) ∧
        c'.size ≤ c.size := by
  induction l generalizing c r with
  | nil =>
    rw [length_nil, Int.natCast_zero, Int.add_zero] at h
    exact ⟨h, Nat.le_refl _⟩
  | cons e l ih =>
    have hlen : extra + ((e :: l).length : Int) + (-1) = extra + l.length := by
      rw [length_cons]
      omega
    obtain ⟨c₁, hadd, hshards, h₁⟩ := h.entriesAdd (-1) (by omega)
    rw [hlen] at h₁
    have hsame : c₁.size = c.size := by rw [ShareReplica.size, hshards, ShareReplica.size]
    show Meets _ ((c.entriesAdd (-1) >>= fun c => dec c e.node) >>= _) _
    rw [hadd]
    refine (hdec _ c₁ _ e.node (by omega) h₁ (hsame ▸ hsize)).bind fun c₂ hc₂ => ?_
    have hle : c₂.size ≤ c.size := hsame ▸ hc₂.2
    exact (ih hc₂.1 (hle.trans hsize)).mono fun c₃ hc₃ => ⟨hc₃.1, hc₃.2.trans hle⟩

theorem size_dropped (hk : c.shards.lookup k = some n) : (c.dropped k n).size + 1 = c.size :=
  total_erase (fun _ => 1) hk

theorem removeNode {dec : ShareReplica → NodeKey → Except Stop ShareReplica} (hextra : 0 ≤ extra)
    (h : Simulates hash extra c r) (hk : c.shards.lookup k = some n) (hsim : NodeSim hash n m)
    (hdec : ∀ extra c' r j, 0 ≤ extra → Simulates hash extra c' r → c'.size < c.size →
      Meets (· = Stop.limit) (dec c' j) fun c'' =>
        Simulates hash extra c'' (r.linkDec j) ∧ c''.size ≤ c'.size) :
    Meets (· = Stop.limit) (c.removeNode dec k) fun c' =>
      Simulates hash extra c' (m.targets.foldl Mist.ShareReplica.linkDec
        { r.forget (k, m) with shards := r.shards.erase k }) ∧ c'.size ≤ c.size := by
  have hsize := size_dropped (c := c) hk
  rw [h.removeNode_eq hk, ← hsim.children]
  refine (foldlM_children (c.size - 1) hextra (fun extra c' r j he hc' hle => ?_) n.live
    (h.dropped hk hsim) (by omega)).mono fun c' hc' => ⟨hc'.1, by omega⟩
  exact hdec extra c' r j he hc' (by omega)

theorem linkDecWithin (depth : Nat) (hextra : 0 ≤ extra) (h : Simulates hash extra c r) (k : NodeKey)
    (hdepth : c.size < depth) :
    Meets (· = Stop.limit) (c.linkDecWithin depth k) fun c' =>
      Simulates hash extra c' (r.linkDec k) ∧ c'.size ≤ c.size := by
  induction depth generalizing extra c r k with
  | zero => cases hdepth
  | succ depth ih =>
    rw [ShareReplica.linkDecWithin]
    cases hk : c.shards.lookup k with
    | none =>
      rw [Mist.ShareReplica.linkDec_absent (h.absent hk)]
      exact ⟨h, Nat.le_refl _⟩
    | some n =>
      obtain ⟨m, hm, hsim⟩ := h.known hk
      have hdec := h.modify k (f := fun n => { n with links := n.links - 1 })
        (g := fun n => { n with links := n.links - 1 }) (fun _ => rfl) (fun _ _ => rfl)
      rw [ShareReplica.modifyNode, hk, Mist.ShareReplica.modifyNode, hm] at hdec
      dsimp only at hdec
      have hsame := total_insert_old (fun _ => 1) { n with links := n.links - 1 } hk
      have hsize : ShareReplica.size
          { c with shards := c.shards.insert k { n with links := n.links - 1 } } = c.size := by
        show total (fun _ => 1) (c.shards.insert k { n with links := n.links - 1 }) =
          total (fun _ => 1) c.shards
        omega
      have hroot : c.info.root = r.root := congrArg ShareInfo.root h.info
      dsimp only
      rw [hroot]
      split_ifs with hgoes
      · have hgo := hdec.removeNode hextra (lookup_insert _)
          (hsim.setLinks (congrArg (· - 1) hsim.links))
          fun extra c' r j he hc' hlt => ih he hc' j (by omega)
        rw [Mist.ShareReplica.linkDec_goes hm (hsim.links ▸ hgoes)]
        rw [hsize, Mist.ShareReplica.forget_setShards, erase_insert] at hgo
        exact hgo
      · rw [Mist.ShareReplica.linkDec_stays hm (hsim.links ▸ hgoes)]
        exact ⟨hdec, hsize.le⟩

theorem linkDec (hextra : 0 ≤ extra) (h : Simulates hash extra c r) (k : NodeKey) :
    Meets (· = Stop.limit) (c.linkDec k) fun c' =>
      Simulates hash extra c' (r.linkDec k) ∧ c'.size ≤ c.size :=
  linkDecWithin _ hextra h k (by omega)

section

variable (h : Simulates hash 0 c r)
include h

theorem foldlM_linkDec (l : List NodeKey) :
    Meets (· = Stop.limit) (l.foldlM ShareReplica.linkDec c) fun c' =>
      Simulates hash 0 c' (l.foldl Mist.ShareReplica.linkDec r) := by
  induction l generalizing c r with
  | nil => exact h
  | cons k l ih =>
    exact (h.linkDec (Int.le_refl 0) k).bind fun c' hc' => ih hc'.1

theorem foldlM_linkInc (l : List NodeKey) :
    Meets (· = Stop.limit) (l.foldlM ShareReplica.linkInc c) fun c' =>
      Simulates hash 0 c' (l.foldl Mist.ShareReplica.linkInc r) := by
  induction l generalizing c r with
  | nil => exact h
  | cons k l ih =>
    exact (h.linkInc k).bind fun c' hc' => ih hc'

theorem forceRemove (hk : c.shards.lookup k = some n) :
    Meets (· = Stop.limit) (c.forceRemove k) fun c' => Simulates hash 0 c' (r.forceRemove k) := by
  obtain ⟨m, hm, hsim⟩ := h.known hk
  have hzero := h.modify k (f := fun n => { n with links := 0 }) (g := fun n => { n with links := 0 })
    (fun _ => rfl) (fun _ _ => rfl)
  have hk' : (c.modifyNode k fun n => { n with links := 0 }).shards.lookup k =
      some { n with links := 0 } := by
    rw [ShareReplica.modifyNode, hk]
    exact lookup_insert _
  have hgo := hzero.removeNode (Int.le_refl 0) hk' (hsim.setLinks rfl)
    fun extra c' r j he hc' _ => hc'.linkDec he j
  have hshards : (r.modifyNode k fun n => { n with links := 0 }).shards.erase k = r.shards.erase k := by
    rw [Mist.ShareReplica.modifyNode, hm]
    exact erase_insert ..
  rw [hshards] at hgo
  rw [Mist.ShareReplica.forceRemove_goes hm]
  exact hgo.mono fun c' hc' => hc'.1

end

end Simulates

end Compact

end Mist
