import Mathlib.Data.List.Perm.Lattice
import Mist.Hostd.Assembler
import Mist.Hostd.WriteBehind
import Mist.Nfs.Compound
import Mist.Replica.Tables

/-! READDIR of the two servers, and a client that pages through a directory across resyncs. -/

namespace Mist.Nfs

open List Option Runs ShareReplica DirState CEnt Assembler

def mapErr : ReplicaError → NfsError
  | .noEnt => .noEnt
  | .notDir => .notDir
  | .notSymlink => .notSymlink
  | .incomplete => .jukebox
  | .badPath => .noEnt

def NFS3_OK : UInt32 := 0

/-- The status of an error, the same numbers in both versions of the protocol. -/
def nfsstatOf : NfsError → UInt32
  | .noEnt => 2
  | .notDir => 20
  | .isDir => 21
  | .notSymlink => 22
  | .stale => 70
  | .access => 13
  | .io => 5
  | .jukebox => 10008
  | .nameTooLong => 63
  | .notEmpty => 66
  | .exist => 17
  | .noSpace => 28
  | .rofs => 30

/-- The statuses that tell a client that its cookie or its verifier is not valid: BAD_COOKIE, and
NOT_SAME of NFSv4. -/
def refusesCookie (status : UInt32) : Bool := status = 10003 || status = 10027

structure DirReply where
  status : UInt32
  cookieverf : Nat
  entries : List CEnt
  eof : Bool

-- the bytes of an encoded entry, which depend on the attributes asked for
variable (size : CEnt → Nat)

/-- The entries NFSv3 writes after `len` bytes: one that may pass the client's `maxcount` ends the
reply. -/
def fits3 (budget perEntry len : Nat) : List CEnt → List CEnt
  | [] => []
  | e :: es =>
    if len + perEntry + e.name.bytes.length > budget then []
    else e :: fits3 budget perEntry (len + size e) es

/-- The entries NFSv4 writes in what is left of `maxcount`. -/
def fits4 (budget : Nat) : List CEnt → List CEnt
  | [] => []
  | e :: es => if size e + 8 > budget then [] else e :: fits4 (budget - (size e + 4)) es

/-- A READDIR or READDIRPLUS call, and one of NFSv4: the client's limit, and in NFSv3 the bytes of the
reply before the entries. -/
inductive DirCall where
  | v3 (plus : Bool) (maxcount len : Nat)
  | v4 (maxcount : Nat)

/-- The verifier the client presents is decoded and not looked at. -/
def readDir (r : ShareReplica) (dir : NodeKey) (cookie _cookieverf : Nat) (plus : Bool)
    (maxcount len : Nat) : DirReply :=
  let perEntry := if plus then 160 else 40
  let maxEntries := min (max ((maxcount - 128) / perEntry) 1) 4096
  match r.readdir dir cookie maxEntries with
  | .error e => ⟨nfsstatOf (mapErr e), 0, [], false⟩
  | .ok p =>
    let fit := fits3 size maxcount perEntry len p.entries
    ⟨NFS3_OK, p.dirgen, fit, if fit.length = p.entries.length then p.eof else false⟩

/-- Nor is it in NFSv4.  Reserved cookies are not emitted. -/
def opReaddir (r : ShareReplica) (dir : NodeKey) (cookie _cookieverf : Nat) (maxcount : Nat) :
    DirReply :=
  match r.readdir dir cookie 4096 with
  | .error e => ⟨nfsstatOf (mapErr e), 0, [], false⟩
  | .ok p =>
    let fit := fits4 size (min maxcount (2097152 - 512)) p.entries
    ⟨NFS4_OK, p.dirgen, fit.map fun e => { e with cookie := max e.cookie 3 },
      p.eof && fit.length = p.entries.length⟩

def DirCall.reply (r : ShareReplica) (dir : NodeKey) (cookie cookieverf : Nat) : DirCall → DirReply
  | .v3 plus maxcount len => readDir size r dir cookie cookieverf plus maxcount len
  | .v4 maxcount => opReaddir size r dir cookie cookieverf maxcount

/-- A scan of the directory: where to go on from, the entries received, whether the last reply
reported the end, and whether the client was told that it cannot go on. -/
structure DirScan where
  cursor : Nat
  cookieverf : Nat
  got : List CEnt
  ended : Bool
  told : Bool

def DirScan.start : DirScan := ⟨0, 0, [], false, false⟩

/-- What the client makes of a reply.  Other errors it retries. -/
def DirScan.next (s : DirScan) (reply : DirReply) : DirScan :=
  if reply.status = NFS4_OK then
    { s with
      cursor := (reply.entries.getLast?.map CEnt.cookie).getD s.cursor
      cookieverf := reply.cookieverf
      got := s.got ++ reply.entries
      ended := reply.eof }
  else { s with told := refusesCookie reply.status }

structure DirSystem where
  host : Assembler
  scan : DirScan

inductive HostEvent where
  | resync (snapId : UInt64)
  | snapDir (d : SnapDir)
  | snapDone (done : SnapDone)
  | journal (b : JournalBatch) (snapId : UInt64)

def HostEvent.apply (a : Assembler) : HostEvent → Assembler
  | .resync snapId => a.requestResync snapId
  | .snapDir d => a.onSnapDir d
  | .snapDone done => a.finishSeed done
  | .journal b snapId => a.onJournal b snapId

inductive DirMove where
  | host (e : HostEvent)
  | call (c : DirCall)

def shows (guest : List (Name × NodeKey)) (dir : NodeKey) (r : ShareReplica) : Bool :=
  (r.dirOf dir).any fun t => t.complete && (t.ents.map CEnt.link).Perm guest

/-- One move.  The directory does not change, so whatever the host receives leaves it listed. -/
def DirSystem.step (guest : List (Name × NodeKey)) (dir : NodeKey) (s : DirSystem) :
    DirMove → Option DirSystem
  | .host e =>
    if shows guest dir (e.apply s.host).replica then some { s with host := e.apply s.host } else none
  | .call c =>
    if s.scan.ended || s.scan.told then none
    else some { s with
      scan := s.scan.next (c.reply size s.host.replica dir s.scan.cursor s.scan.cookieverf) }

def upTo (dir : NodeKey) (cursor : Nat) (r : ShareReplica) : List (Name × NodeKey) :=
  ((r.dirOf dir).map fun t => (t.listing.upto cursor).map CEnt.link).getD []

/-- A replica that replaces another during a scan has the same entries up to the reader's cookie. -/
def DirSystem.Aligned (dir : NodeKey) (s : DirSystem) : DirMove → Prop
  | .host e => s.scan.ended ∨
    (upTo dir s.scan.cursor (e.apply s.host).replica).Perm (upTo dir s.scan.cursor s.host.replica)
  | .call _ => True

instance (dir : NodeKey) (s : DirSystem) (m : DirMove) : Decidable (s.Aligned dir m) :=
  match m with
  | .host _ => inferInstanceAs (Decidable (s.scan.ended ∨ List.Perm _ _))
  | .call _ => .isTrue trivial

section

variable {r : ShareReplica} {dir : NodeKey} {t : DirState}

theorem fits3_eq_take (budget perEntry len : Nat) (es : List CEnt) :
    ∃ n, fits3 size budget perEntry len es = es.take n := by
  induction es generalizing len with
  | nil => exact ⟨0, rfl⟩
  | cons e es ih =>
    rw [fits3]
    split
    · exact ⟨0, rfl⟩
    · obtain ⟨n, hn⟩ := ih (len + size e)
      exact ⟨n + 1, by rw [hn, take_succ_cons]⟩

theorem fits4_eq_take (budget : Nat) (es : List CEnt) : ∃ n, fits4 size budget es = es.take n := by
  induction es generalizing budget with
  | nil => exact ⟨0, rfl⟩
  | cons e es ih =>
    rw [fits4]
    split
    · exact ⟨0, rfl⟩
    · obtain ⟨n, hn⟩ := ih (budget - (size e + 4))
      exact ⟨n + 1, by rw [hn, take_succ_cons]⟩

theorem DirCall.reply_page (ht : r.dirOf dir = some t) (hcomplete : t.complete) (hreal : t.Real)
    (cookie cookieverf : Nat) (c : DirCall) :
    ∃ n, c.reply size r dir cookie cookieverf =
      ⟨NFS4_OK, t.dirgen, (t.listing.after cookie).take n,
        (c.reply size r dir cookie cookieverf).eof⟩ ∧
      ((c.reply size r dir cookie cookieverf).eof → (t.listing.after cookie).length ≤ n) := by
  -- a page of `max` entries of which `n` fit, and the end is reported if all do
  have hcut : ∀ max n : Nat, ∃ m, ((t.listing.after cookie).take max).take n =
      (t.listing.after cookie).take m ∧
      ((t.listing.after cookie).length ≤ max → (((t.listing.after cookie).take max).take n).length =
          ((t.listing.after cookie).take max).length → (t.listing.after cookie).length ≤ m) := by
    intro max n
    refine ⟨min n max, take_take, fun hmax hlen => ?_⟩
    rw [take_of_length_le hmax, length_take] at hlen
    omega
  cases c with
  | v3 plus maxcount len =>
    simp only [DirCall.reply, readDir, readdir_eq ht hcomplete]
    generalize (if plus = true then 160 else 40) = perEntry
    generalize min (max ((maxcount - 128) / perEntry) 1) 4096 = maxEntries
    obtain ⟨n, hn⟩ := fits3_eq_take size maxcount perEntry len
      ((t.listing.after cookie).take maxEntries)
    obtain ⟨m, hm, hlast⟩ := hcut maxEntries n
    rw [hn]
    refine ⟨m, by rw [hm]; rfl, fun heof => ?_⟩
    split at heof
    · rename_i hlen
      exact hlast (of_decide_eq_true heof) hlen
    · cases heof
  | v4 maxcount =>
    simp only [DirCall.reply, opReaddir, readdir_eq ht hcomplete]
    obtain ⟨n, hn⟩ := fits4_eq_take size (min maxcount (2097152 - 512))
      ((t.listing.after cookie).take 4096)
    obtain ⟨m, hm, hlast⟩ := hcut 4096 n
    rw [hn]
    have hmap : (((t.listing.after cookie).take 4096).take n).map
        (fun e => { e with cookie := max e.cookie 3 }) = (t.listing.after cookie).take m := by
      rw [hm]
      refine (map_congr_left fun e he => ?_).trans (map_id _)
      have hmem := (Paging.Listing.mem_after.mp (mem_of_mem_take he)).1
      have hle : 3 ≤ e.cookie := hreal.2 e hmem
      rw [Nat.max_eq_left hle]
      rfl
    refine ⟨m, by rw [hmap], fun heof => ?_⟩
    obtain ⟨heof, hlen⟩ := Bool.and_eq_true_iff.mp heof
    exact hlast (of_decide_eq_true heof) (of_decide_eq_true hlen)

end

def HostReal (a : Assembler) : Prop :=
  a.replica.Tables DirState.Real ∧ ∀ st ∈ a.staging, st.replica.Tables DirState.Real

section

variable {a : Assembler} {r : ShareReplica}

section

variable (h : r.Tables Real)
include h

theorem applyRec_real (rec : Rec) : (r.applyRec rec).1.Tables Real :=
  feed_real (f := .record rec) h rfl

theorem bumpDirAttr_real (d : NodeKey) : (r.bumpDirAttr d).Tables Real := by
  intro k t ht
  rw [bumpDirAttr, dirOf_modifyNode fun n => by split <;> rfl] at ht
  exact h k t ht

theorem onRecs_real (dirty : NodeKey → Bool) (recs : List Rec) :
    (r.onRecs dirty recs).1.Tables Real := by
  induction recs generalizing r with
  | nil => exact h
  | cons rec recs ih =>
    refine ih ?_
    unfold onRec
    dsimp only
    split
    · exact h
    · exact foldlRecOn _ _ (applyRec_real h rec) fun _ hr d _ => bumpDirAttr_real hr d

theorem replayBuffer_real (batches : List JournalBatch) :
    (r.replayBuffer batches).Tables Real :=
  foldlRecOn batches _ h fun _ hr b _ =>
    foldlRecOn b.records _ hr fun _ hr rec _ => applyRec_real hr rec

end

theorem requestResync_real (h : HostReal a) (snapId : UInt64) : HostReal (a.requestResync snapId) :=
  ⟨h.1, fun st hst => by rw [← some.inj hst]; exact new_real _⟩

theorem HostEvent.apply_real (h : HostReal a) (e : HostEvent) : HostReal (e.apply a) := by
  cases e with
  | resync snapId => exact requestResync_real h snapId
  | snapDir d =>
    unfold HostEvent.apply onSnapDir
    dsimp only
    split
    · rename_i st hst
      split
      · split
        · rename_i r hr
          refine ⟨h.1, fun st' hst' => ?_⟩
          rw [← some.inj hst']
          exact feed_real (f := .snap d) (h.2 st hst) hr
        · exact h
      · exact h
    · exact h
  | snapDone done =>
    unfold HostEvent.apply finishSeed
    dsimp only
    split
    · rename_i st hst
      split
      · have hdone : (st.replica.finishSnapshot done).1.Tables Real := h.2 st hst
        exact ⟨replayBuffer_real hdone st.journalBuf, nofun⟩
      · exact h
    · exact h
  | journal b snapId =>
    unfold HostEvent.apply onJournal
    dsimp only
    split
    · exact requestResync_real h snapId
    split
    · exact h
    · split
      · rename_i st hst
        refine ⟨h.1, fun st' hst' => ?_⟩
        rw [← some.inj hst']
        exact h.2 st hst
      · split
        · exact h
        · split
          · exact h
          · split
            · exact requestResync_real h snapId
            · have hbatch : HostReal { a with
                  replica := (a.replica.onRecs (isMacDirty a.macDirty a.now a.info.id) b.records).1
                  seq := some b.fin } := ⟨onRecs_real h.1 _ b.records, h.2⟩
              unfold applyBatch
              dsimp only
              split
              · exact requestResync_real hbatch snapId
              · exact hbatch

end

/-- The entries received are those up to the reader's cookie, and all of them after the end. -/
structure DirSystem.Sound (guest : List (Name × NodeKey)) (dir : NodeKey) (s : DirSystem) : Prop where
  real : HostReal s.host
  listed : shows guest dir s.host.replica
  got : (s.scan.got.map CEnt.link).Perm
    (if s.scan.ended then guest else upTo dir s.scan.cursor s.host.replica)

section

variable {size : CEnt → Nat} {guest : List (Name × NodeKey)} {dir : NodeKey} {s s' : DirSystem}

theorem shows_iff {r : ShareReplica} : shows guest dir r ↔ ∃ t, r.dirOf dir = some t ∧ t.complete ∧
    (t.ents.map CEnt.link).Perm guest := by
  rw [shows, Option.any_eq_true]
  simp only [Bool.and_eq_true, decide_eq_true_eq]

theorem upTo_eq {r : ShareReplica} {t : DirState} (ht : r.dirOf dir = some t) (cursor : Nat) :
    upTo dir cursor r = (t.listing.upto cursor).map CEnt.link := by
  rw [upTo, ht]
  rfl

theorem DirSystem.Sound.start {host : Assembler} (hreal : HostReal host)
    (hshows : shows guest dir host.replica) : Sound guest dir ⟨host, .start⟩ := by
  refine ⟨hreal, hshows, ?_⟩
  obtain ⟨t, ht, -, -⟩ := shows_iff.mp hshows
  have hnone : t.listing.upto 0 = [] := by
    refine filter_eq_nil_iff.mpr fun e he => ?_
    have hle : 3 ≤ e.cookie := (hreal.1 dir t ht).2 e he
    rw [decide_eq_true_eq]
    omega
  show Perm [] (upTo dir 0 host.replica)
  rw [upTo_eq ht, hnone]
  exact .nil

theorem DirSystem.Sound.host (h : s.Sound guest dir) {e : HostEvent}
    (hok : s.Aligned dir (.host e)) (hs' : s.step size guest dir (.host e) = some s') :
    s'.Sound guest dir := by
  obtain ⟨hshows, rfl⟩ := ite_some_none_eq_some.mp hs'
  refine ⟨HostEvent.apply_real h.real e, hshows, ?_⟩
  have hgot := h.got
  by_cases hend : s.scan.ended
  · rw [if_pos hend] at hgot ⊢
    exact hgot
  · rw [if_neg hend] at hgot ⊢
    exact hgot.trans (hok.resolve_left hend).symm

theorem DirSystem.Sound.call (h : s.Sound guest dir) {c : DirCall}
    (hs' : s.step size guest dir (.call c) = some s') : s'.Sound guest dir := by
  obtain ⟨hgo, hs'⟩ := ite_none_left_eq_some.mp hs'
  rw [Bool.or_eq_true, not_or, Bool.not_eq_true, Bool.not_eq_true] at hgo
  obtain ⟨t, ht, hcomplete, hperm⟩ := shows_iff.mp h.listed
  obtain ⟨n, hreply, hlast⟩ := DirCall.reply_page size ht hcomplete (h.real.1 dir t ht) s.scan.cursor
    s.scan.cookieverf c
  cases hs'
  rw [hreply, DirScan.next, if_pos rfl]
  refine ⟨h.real, h.listed, ?_⟩
  have hgot := h.got
  rw [hgo.1, if_neg Bool.false_ne_true, upTo_eq ht] at hgot
  have hall : ((s.scan.got ++ (t.listing.after s.scan.cursor).take n).map link).Perm
      ((t.listing.upto (t.listing.reach s.scan.cursor n)).map link) := by
    rw [map_append]
    refine (hgot.append_right _).trans ?_
    rw [← map_append]
    exact ((t.listing.upto_reach s.scan.cursor n).map _).symm
  split_ifs with heof
  · rw [Paging.Listing.upto_eq_items (Paging.Listing.after_reach_eq_nil.mpr (hlast heof))] at hall
    exact hall.trans hperm
  · rw [upTo_eq ht]
    exact hall

end

/-- A scan across resyncs of a directory that does not change returns every entry once, if each new
replica has the same entries up to the client's cookie. -/
theorem scan_across_resyncs (size : CEnt → Nat) (guest : List (Name × NodeKey)) (dir : NodeKey)
    (info : ShareInfo) (now : Nat) (dirty : MacDirty) (events : List HostEvent) (host : Assembler)
    (hhost : host = events.foldl (fun a e => e.apply a) ⟨info, now, dirty, none, none, .new info, []⟩)
    (hshows : shows guest dir host.replica) (s : DirSystem)
    (h : Runs.Reaches (DirSystem.step size guest dir) (DirSystem.Aligned dir) ⟨host, .start⟩ s)
    (hend : s.scan.ended) : (s.scan.got.map CEnt.link).Perm guest := by
  have hreal : HostReal host := by
    rw [hhost]
    suffices hfold : ∀ (events : List HostEvent) (a : Assembler), HostReal a →
        HostReal (events.foldl (fun a e => e.apply a) a) from
      hfold _ _ ⟨new_real info, nofun⟩
    intro events
    induction events with
    | nil => exact fun a ha => ha
    | cons e events ih => exact fun a ha => ih _ (HostEvent.apply_real ha e)
  have hsound : s.Sound guest dir := by
    refine h.inv (.start hreal hshows) fun s m s' hs hok hs' => ?_
    cases m with
    | host e => exact hs.host hok hs'
    | call c => exact hs.call hs'
  have hgot := hsound.got
  rwa [if_pos hend] at hgot

def seeded (snapId : UInt64) (first second : Name × NodeKey) : List HostEvent :=
  [.resync snapId, .snapDir {
    snapId, share := ⟨1⟩, dir := ⟨2, 1⟩, dirAttr := placeholderAttr .dir, parent := ⟨2, 1⟩
    entries := [⟨first.1, first.2, placeholderAttr .reg⟩, ⟨second.1, second.2, placeholderAttr .reg⟩]
    last := true },
   .snapDone ⟨snapId, ⟨1⟩⟩]

theorem scan_across_resyncs_sameOrder :
    let a := (Name.letter 'a', (⟨3, 1⟩ : NodeKey))
    let b := (Name.letter 'b', (⟨4, 1⟩ : NodeKey))
    let host := (seeded 1 a b).foldl (fun h e => e.apply h)
      ⟨⟨⟨1⟩, ⟨2, 1⟩⟩, 0, [], none, none, .new ⟨⟨1⟩, ⟨2, 1⟩⟩, []⟩
    ∃ s, Reaches (DirSystem.step (fun _ => 40) [a, b] ⟨2, 1⟩) (DirSystem.Aligned ⟨2, 1⟩)
        ⟨host, .start⟩ s ∧ s.host.requested = [1, 2] ∧ s.scan.ended ∧
      (s.scan.got.map link).Perm [a, b] := by
  intro a b host
  exact Reaches.exists_imp (fun s => s.host.requested = [1, 2] ∧ s.scan.ended)
    (.call (.v3 false 168 100) :: (seeded 2 a b).map .host ++ [.call (.v4 4096)]) (by decide +kernel)
    fun s hs ⟨hrequested, hended⟩ => ⟨hrequested, hended, scan_across_resyncs _ _ _ ⟨⟨1⟩, ⟨2, 1⟩⟩ 0 []
      (seeded 1 a b) host rfl (by decide +kernel) s hs hended⟩

/-- A resync lists the two files in the other order: the client receives the first twice and the
second never. -/
theorem scan_across_resyncs_misses :
    let a := (Name.letter 'a', (⟨3, 1⟩ : NodeKey))
    let b := (Name.letter 'b', (⟨4, 1⟩ : NodeKey))
    let host := (seeded 1 a b).foldl (fun h e => e.apply h)
      ⟨⟨⟨1⟩, ⟨2, 1⟩⟩, 0, [], none, none, .new ⟨⟨1⟩, ⟨2, 1⟩⟩, []⟩
    shows [a, b] ⟨2, 1⟩ host.replica ∧
      ∃ s, Reaches (DirSystem.step (fun _ => 40) [a, b] ⟨2, 1⟩) (fun _ _ => True)
          ⟨host, .start⟩ s ∧ s.scan.ended ∧ s.scan.told = false ∧
        s.scan.got.map link = [a, a] := by
  intro a b host
  exact ⟨by decide +kernel, Reaches.exists_of_guarded
    (.call (.v3 false 168 100) :: (seeded 2 b a).map .host ++ [.call (.v3 false 168 100)])
    (by decide +kernel)⟩

end Mist.Nfs
