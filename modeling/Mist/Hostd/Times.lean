import Mist.Hostd.Listings

/-! Times that must move forward: a directory's, under the surface and the journal reader. -/

namespace Mist

def Ts.Normal (t : Ts) : Prop := t.nsec < 1000000000
  deriving Decidable

/-- Nanoseconds since the epoch, without a bound. -/
def Ts.nanos (t : Ts) : Int := t.sec.toInt * 1000000000 + t.nsec.toNat

theorem toNat_of_nonneg {s : Int64} (h : 0 ≤ s) : (s.toUInt64.toNat : Int) = s.toInt := by
  have hpos : 0 ≤ s.toBitVec.toInt := Int64.le_iff_toInt_le.mp h
  show (s.toBitVec.toNat : Int) = s.toBitVec.toInt
  rw [BitVec.toInt_eq_toNat_cond] at hpos ⊢
  omega

theorem Ts.before_iff {s t : Ts} (hs : s.Normal) (ht : t.Normal) :
    s.before t ↔ s.nanos < t.nanos := by
  have hs' := UInt32.lt_iff_toNat_lt.mp hs
  have ht' := UInt32.lt_iff_toNat_lt.mp ht
  simp only [before, nanos, Bool.or_eq_true, Bool.and_eq_true, decide_eq_true_eq,
    Int64.lt_iff_toInt_lt, UInt32.lt_iff_toNat_lt, ← Int64.toInt_inj]
  simp at hs' ht'
  omega

theorem Ts.next_normal (t : Ts) : t.next.Normal := by
  unfold next Normal
  split <;> grind

theorem Ts.nanos_succ {t : Ts} (h : t.nsec < 999999999) :
    (⟨t.sec, t.nsec + 1⟩ : Ts).nanos = t.nanos + 1 := by
  have hsucc : (t.nsec + 1).toNat = t.nsec.toNat + 1 := by
    have hlt := UInt32.lt_iff_toNat_lt.mp h
    rw [UInt32.toNat_add, Nat.mod_eq_of_lt] <;> simp at hlt ⊢
    omega
  simp only [nanos, hsucc]
  omega

theorem Ts.nanos_next {t : Ts} (h : t.Normal) (hmax : t ≠ ⟨Int64.maxValue, 999999999⟩) :
    t.next.nanos = t.nanos + 1 := by
  unfold next
  split
  · have hnsec : t.nsec = 999999999 := by grind [Normal]
    have hsec : t.sec.toInt ≠ 9223372036854775807 := fun heq =>
      hmax (by cases t; exact congrArg₂ _ (Int64.toInt_inj.mp heq) hnsec)
    have hlt := t.sec.toInt_lt
    have hle := t.sec.le_toInt
    have hcarry : (t.sec + 1).toInt = t.sec.toInt + 1 := by
      rw [Int64.toInt_add, Int.bmod_eq_of_le] <;> simp <;> omega
    simp only [nanos, hcarry, hnsec]
    simp
    omega
  · exact nanos_succ (by grind)

namespace ShareReplica

/-- A call on a directory: of the surface, at a reading of the clock, or of the reader. -/
inductive Bump where
  | surface (now : Ts) (normal : now.Normal)
  | reader

def bump (r : ShareReplica) (dir : NodeKey) : Bump → ShareReplica
  | .surface now _ => r.bumpDir now dir
  | .reader => r.bumpDirAttr dir

def Bump.time (mtime : Ts) : Bump → Ts
  | .surface now _ => if mtime.before now then now else ⟨mtime.sec, mtime.nsec + 1⟩
  | .reader => mtime.next

/-- The directory's new times are later and of normal form. -/
def Advances (dir : NodeKey) (r r' : ShareReplica) : Prop :=
  ∃ a b, r.getattr dir = .ok a ∧ r'.getattr dir = .ok b ∧ a.mtime.before b.mtime ∧
    b.mtime.Normal ∧ b.ctime.Normal ∧ ¬ b.ctime.before a.ctime

/-- The change time is not ahead of the call's time, and the nanoseconds have room. -/
def Bump.Ticks (mtime ctime : Ts) : Bump → Prop
  | .surface now _ =>
    if mtime.before now then ¬ now.before ctime
    else mtime.nsec ≠ 999999999 ∧ ctime.nanos ≤ mtime.nanos + 1
  | .reader => mtime ≠ ⟨Int64.maxValue, 999999999⟩ ∧ ctime.nanos ≤ mtime.nanos + 1

variable {r r' : ShareReplica} {dir : NodeKey} {a : Attr}

theorem getattr_bump (ha : r.getattr dir = .ok a) (hdir : a.kind = .dir) (c : Bump) :
    ∃ b, (r.bump dir c).getattr dir = .ok b ∧ b.kind = .dir ∧
      b.mtime = c.time a.mtime ∧ b.ctime = c.time a.mtime := by
  cases c with
  | surface now normal =>
    simp only [bump, bumpDir, ha, Bump.time]
    obtain ⟨b, hb, hagrees⟩ := attrChanged_shows (live_of_getattr ha) { a with
      mtime := if a.mtime.before now then now else ⟨a.mtime.sec, a.mtime.nsec + 1⟩
      ctime := if a.mtime.before now then now else ⟨a.mtime.sec, a.mtime.nsec + 1⟩ }
    refine ⟨b, hb, ?_⟩
    rw [hagrees]
    exact ⟨hdir, rfl, rfl⟩
  | reader =>
    obtain ⟨n, hn⟩ := live_iff.mp (live_of_getattr ha)
    have hlive : (r.bumpDirAttr dir).live dir :=
      live_iff.mpr ⟨_, by rw [bumpDirAttr, lookup_modifyNode, if_pos rfl, hn]; rfl⟩
    obtain ⟨b, hb⟩ := getattr_of_live hlive
    obtain ⟨a', ha', hbump⟩ := getattr_bumpDirAttr hb
    obtain rfl : a = a' := Except.ok.inj (ha.symm.trans ha')
    rw [if_pos rfl, Attr.bumped, if_pos hdir] at hbump
    subst hbump
    exact ⟨_, hb, hdir, rfl, rfl⟩

theorem time_iff {mtime ctime : Ts} (hm : mtime.Normal) (hc : ctime.Normal) (c : Bump) :
    (mtime.before (c.time mtime) ∧ (c.time mtime).Normal ∧ ¬ (c.time mtime).before ctime) ↔
      c.Ticks mtime ctime := by
  have hstep : ∀ t : Ts, t.Normal → t.nanos = mtime.nanos + 1 →
      ((mtime.before t ∧ t.Normal ∧ ¬ t.before ctime) ↔ ctime.nanos ≤ mtime.nanos + 1) := by
    intro t ht hnanos
    rw [Ts.before_iff hm ht, Ts.before_iff ht hc, hnanos]
    exact ⟨fun h => Int.not_lt.mp h.2.2, fun h => ⟨by omega, ht, Int.not_lt.mpr h⟩⟩
  cases c with
  | surface now normal =>
    simp only [Bump.time, Bump.Ticks]
    split_ifs with hnow
    · exact ⟨fun h => h.2.2, fun h => ⟨hnow, normal, h⟩⟩
    by_cases hfull : mtime.nsec = 999999999
    · exact ⟨fun h => absurd h.2.1 (by simp [Ts.Normal, hfull]), fun h => absurd hfull h.1⟩
    have hlt : mtime.nsec < 999999999 := by grind [Ts.Normal]
    rw [hstep _ (by grind [Ts.Normal]) (Ts.nanos_succ hlt)]
    exact ⟨fun h => ⟨hfull, h⟩, fun h => h.2⟩
  | reader =>
    by_cases hmax : mtime = ⟨Int64.maxValue, 999999999⟩
    · exact ⟨fun h => by simp [hmax, Bump.time, Ts.next, Ts.before] at h, fun h => absurd hmax h.1⟩
    · rw [Bump.time, hstep _ (Ts.next_normal _) (Ts.nanos_next hm hmax)]
      exact ⟨fun h => ⟨hmax, h⟩, fun h => h.2⟩

/-- A directory whose times are of normal form. -/
def DirAt (dir : NodeKey) (r : ShareReplica) : Prop :=
  ∃ a, r.getattr dir = .ok a ∧ a.kind = .dir ∧ a.mtime.Normal ∧ a.ctime.Normal

def Ticks (dir : NodeKey) (r : ShareReplica) (c : Bump) : Prop :=
  ∃ a, r.getattr dir = .ok a ∧ c.Ticks a.mtime a.ctime

/-- Calls one after another, of either kind and at any readings of the clock. -/
inductive Bumped (dir : NodeKey) (r : ShareReplica) : ShareReplica → Prop
  | start : Bumped dir r r
  | call {s : ShareReplica} (h : Bumped dir r s) (c : Bump) (ticks : s.Ticks dir c) :
      Bumped dir r (s.bump dir c)

theorem advances_iff (h : r.DirAt dir) (c : Bump) :
    Advances dir r (r.bump dir c) ↔ r.Ticks dir c := by
  obtain ⟨a, ha, hdir, hm, hc⟩ := h
  obtain ⟨b, hb, -, hmtime, hctime⟩ := getattr_bump ha hdir c
  have hiff := time_iff hm hc c
  constructor
  · rintro ⟨a', b', ha', hb', hlater, hnormal, -, hback⟩
    obtain rfl : a = a' := Except.ok.inj (ha.symm.trans ha')
    obtain rfl : b = b' := Except.ok.inj (hb.symm.trans hb')
    rw [hmtime] at hlater hnormal
    rw [hctime] at hback
    exact ⟨a, ha, hiff.mp ⟨hlater, hnormal, hback⟩⟩
  · rintro ⟨a', ha', hticks⟩
    obtain rfl : a = a' := Except.ok.inj (ha.symm.trans ha')
    obtain ⟨hlater, hnormal, hback⟩ := hiff.mpr hticks
    exact ⟨a, b, ha, hb, hmtime ▸ hlater, hmtime ▸ hnormal, hctime ▸ hnormal, hctime ▸ hback⟩

theorem Bumped.dirAt (h : r.DirAt dir) (hrun : Bumped dir r r') : r'.DirAt dir := by
  induction hrun with
  | start => exact h
  | call _ c ticks ih =>
    obtain ⟨a, ha, hdir, -⟩ := id ih
    obtain ⟨b, hb, hkind, -⟩ := getattr_bump ha hdir c
    obtain ⟨_, b', -, hb', -, hm, hc, -⟩ := (advances_iff ih c).mpr ticks
    obtain rfl : b = b' := Except.ok.inj (hb.symm.trans hb')
    exact ⟨b, hb, hkind, hm, hc⟩

/-- After any calls that moved the directory forward, the next one does unless its nanoseconds run
over or the change time is ahead. -/
theorem bump_advances_iff (h : r.DirAt dir) (hrun : Bumped dir r r') (c : Bump) :
    Advances dir r' (r'.bump dir c) ↔ r'.Ticks dir c :=
  advances_iff (hrun.dirAt h) c

/-- A directory as the guest reports it. -/
def dirWith (mtime ctime : Ts) : ShareReplica :=
  (LiveShare.oneFile.applyRec (.attrChanged ⟨1, 0⟩ { placeholderAttr .dir with mtime, ctime })).1

theorem dirWith_shows (mtime ctime : Ts) : ∃ a, (dirWith mtime ctime).getattr ⟨1, 0⟩ = .ok a ∧
    a.kind = .dir ∧ a.mtime = mtime ∧ a.ctime = ctime := by
  have hlive : LiveShare.oneFile.live ⟨1, 0⟩ := by decide +kernel
  obtain ⟨a, ha, hagrees⟩ := attrChanged_shows hlive { placeholderAttr .dir with mtime, ctime }
  exact ⟨a, ha, by rw [hagrees]; exact ⟨rfl, rfl, rfl⟩⟩

theorem dirAt_dirWith {mtime ctime : Ts} (hm : mtime.Normal) (hc : ctime.Normal) :
    (dirWith mtime ctime).DirAt ⟨1, 0⟩ := by
  obtain ⟨a, ha, hkind, rfl, rfl⟩ := dirWith_shows mtime ctime
  exact ⟨a, ha, hkind, hm, hc⟩

theorem ticks_dirWith {mtime ctime : Ts} {c : Bump} :
    (dirWith mtime ctime).Ticks ⟨1, 0⟩ c ↔ c.Ticks mtime ctime := by
  obtain ⟨a, ha, -, hm, hc⟩ := dirWith_shows mtime ctime
  simp [Ticks, ha, hm, hc]

/-- With the clock behind, the surface counts to a whole second of nanoseconds; and a change time
that is ahead goes back. -/
theorem bump_not_advancing :
    let full := dirWith ⟨5, 999999999⟩ ⟨5, 0⟩
    let ahead := dirWith ⟨5, 0⟩ ⟨7, 0⟩
    (full.DirAt ⟨1, 0⟩ ∧ ¬ Advances ⟨1, 0⟩ full (full.bump ⟨1, 0⟩ (.surface ⟨5, 0⟩ (by decide)))) ∧
    (ahead.DirAt ⟨1, 0⟩ ∧ ¬ Advances ⟨1, 0⟩ ahead (ahead.bump ⟨1, 0⟩ .reader)) := by
  have hfull : (dirWith ⟨5, 999999999⟩ ⟨5, 0⟩).DirAt ⟨1, 0⟩ := dirAt_dirWith (by decide) (by decide)
  have hahead : (dirWith ⟨5, 0⟩ ⟨7, 0⟩).DirAt ⟨1, 0⟩ := dirAt_dirWith (by decide) (by decide)
  refine ⟨⟨hfull, ?_⟩, hahead, ?_⟩
  · rw [advances_iff hfull, ticks_dirWith]
    simp [Bump.Ticks, Ts.before]
  · rw [advances_iff hahead, ticks_dirWith]
    simp [Bump.Ticks, Ts.nanos]

theorem bump_advances_iff_once :
    Advances ⟨1, 0⟩ (dirWith ⟨5, 0⟩ ⟨5, 0⟩) ((dirWith ⟨5, 0⟩ ⟨5, 0⟩).bump ⟨1, 0⟩ .reader) :=
  (bump_advances_iff (dirAt_dirWith (by decide) (by decide)) .start .reader).mpr
    (ticks_dirWith.mpr (by simp [Bump.Ticks, Ts.nanos]))

end ShareReplica

end Mist
