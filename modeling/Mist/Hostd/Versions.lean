import Mist.Hostd.Reads
import Mist.Nfs.Attrs

/-! Which attributes the cache key and the change attribute tell apart.  A step of the mix is a
permutation of the words; two steps spread seconds beyond the reach of nanoseconds. -/

namespace Mist

open List

/-- One step of the mix; `0x100000001b3` is `2^40 + 435`. -/
def mix (h v : UInt64) : UInt64 := (h ^^^ v) * 0x100000001b3

theorem mix_xor_inj {h h' v v' : UInt64} (heq : mix h v = mix h' v') : h ^^^ v = h' ^^^ v' := by
  -- the multiplier is a unit
  have hinv := congrArg (· * (0xce965057aff6957b : UInt64)) heq
  simpa [mix, UInt64.mul_assoc] using hinv

theorem mix_right_inj {h v v' : UInt64} (heq : mix h v = mix h v') : v = v' := by
  simpa using mix_xor_inj heq

theorem mix_left_inj {h h' v : UInt64} (heq : mix h v = mix h' v) : h = h' := by
  simpa using mix_xor_inj heq

theorem foldl_mix_inj {l : List UInt64} {h h' : UInt64} (heq : l.foldl mix h = l.foldl mix h') :
    h = h' := by
  induction l generalizing h h' with
  | nil => exact heq
  | cons v l ih => exact mix_left_inj (ih heq)

/-- Fields that differ in one place are mixed to different words. -/
theorem foldl_mix_ne {φ : Type} {fs : List φ} (hfs : fs.Nodup) {f : φ} {w w' : φ → UInt64}
    (hf : f ∈ fs) (hne : w f ≠ w' f) (heq : ∀ g ∈ fs, g ≠ f → w g = w' g) (h : UInt64) :
    (fs.map w).foldl mix h ≠ (fs.map w').foldl mix h := by
  induction fs generalizing h with
  | nil => cases hf
  | cons g gs ih =>
    obtain ⟨hg, hgs⟩ := nodup_cons.mp hfs
    rcases mem_cons.mp hf with rfl | hf
    · have hrest : gs.map w = gs.map w' := map_congr_left fun g' hg' =>
        heq g' (.tail _ hg') fun hsame => hg (hsame ▸ hg')
      intro hsame
      rw [map_cons, map_cons, foldl_cons, foldl_cons, hrest] at hsame
      exact hne (mix_right_inj (foldl_mix_inj hsame))
    · rw [map_cons, map_cons, foldl_cons, foldl_cons, heq g (.head _) fun hsame => hg (hsame ▸ hf)]
      exact ih hgs hf (fun g' hg' => heq g' (.tail _ hg')) _

theorem xor_shiftRight {h v : UInt64} {i : Nat} (hv : v.toNat >>> i = 0) :
    (h ^^^ v).toNat >>> i = h.toNat >>> i := by
  rw [UInt64.toNat_xor, Nat.shiftRight_xor_distrib, hv, Nat.xor_zero]

/-- Words that differ in the low bits only are mixed to words that do not. -/
theorem spread {u u' : Nat} (hlow : u >>> 31 = u' >>> 31)
    (hhigh : (u * 1099511628211 % 18446744073709551616) >>> 30 =
      (u' * 1099511628211 % 18446744073709551616) >>> 30) : u = u' := by
  have hmul : ((u : Int) - u') * 435 = (u * 1099511628211 % 18446744073709551616 : Nat) -
      (u' * 1099511628211 % 18446744073709551616 : Nat) := by omega
  omega

/-- Two steps tell apart every two times. -/
theorem mix_mix_inj {h s s' n n' : UInt64} (hs : s.toNat < 2147483648) (hs' : s'.toNat < 2147483648)
    (hn : n.toNat < 1000000000) (hn' : n'.toNat < 1000000000)
    (heq : mix (mix h s) n = mix (mix h s') n') : s = s' ∧ n = n' := by
  have hxor : mix h s ^^^ n = mix h s' ^^^ n' := mix_xor_inj heq
  have hnear : (mix h s).toNat >>> 30 = (mix h s').toNat >>> 30 := by
    rw [← xor_shiftRight (v := n) (by omega), hxor, xor_shiftRight (by omega)]
  have hnear' : (h ^^^ s).toNat >>> 31 = (h ^^^ s').toNat >>> 31 := by
    rw [xor_shiftRight (by omega), xor_shiftRight (by omega)]
  have hmul : ∀ v, (mix h v).toNat = (h ^^^ v).toNat * 1099511628211 % 18446744073709551616 :=
    fun v => UInt64.toNat_mul ..
  rw [hmul, hmul] at hnear
  obtain rfl : s = s' := by
    have hsame : h ^^^ s = h ^^^ s' := UInt64.toNat_inj.mp (spread hnear' hnear)
    simpa using hsame
  exact ⟨rfl, mix_right_inj heq⟩

inductive MixedField where
  | mtimeSec | mtimeNsec | ctimeSec | ctimeNsec | size | contentVersion
  deriving DecidableEq

namespace MixedField

/-- The field as it is mixed: the seconds as an unsigned word. -/
def word (a : Attr) : MixedField → UInt64
  | mtimeSec => a.mtime.sec.toUInt64
  | mtimeNsec => a.mtime.nsec.toUInt64
  | ctimeSec => a.ctime.sec.toUInt64
  | ctimeNsec => a.ctime.nsec.toUInt64
  | size => a.size
  | contentVersion => a.contentVersion

def ofContent : List MixedField := [mtimeSec, mtimeNsec, size, contentVersion]

def ofChange : List MixedField := [mtimeSec, mtimeNsec, ctimeSec, ctimeNsec, size]

/-- Of the fields `fs`, the records differ in exactly one. -/
def DifferInOne (fs : List MixedField) (a b : Attr) : Prop :=
  ∃ f ∈ fs, word a f ≠ word b f ∧ ∀ g ∈ fs, g ≠ f → word a g = word b g

end MixedField

def Ts.unsigned32 (t : Ts) : Prop := 0 ≤ t.sec ∧ t.sec < 2147483648 ∧ t.nsec < 1000000000
  deriving Decidable

theorem Ts.mix_inj {s t : Ts} (hs : s.unsigned32) (ht : t.unsigned32) {h : UInt64}
    (heq : mix (mix h s.sec.toUInt64) s.nsec.toUInt64 =
      mix (mix h t.sec.toUInt64) t.nsec.toUInt64) : s = t := by
  have hsec : ∀ t : Ts, t.unsigned32 → t.sec.toUInt64.toNat < 2147483648 := by
    rintro ⟨sec, nsec⟩ ⟨hpos, hlt, -⟩
    rw [Int64.le_iff_toInt_le] at hpos
    rw [Int64.lt_iff_toInt_lt] at hlt
    have hcast : sec.toInt = sec.toBitVec.toInt := rfl
    rw [hcast, BitVec.toInt_eq_toNat_cond] at hpos hlt
    show sec.toBitVec.toNat < 2147483648
    simp at hpos hlt
    omega
  have hnsec : ∀ t : Ts, t.unsigned32 → t.nsec.toUInt64.toNat < 1000000000 := fun t ht => by
    simpa using UInt32.lt_iff_toNat_lt.mp ht.2.2
  obtain ⟨hsec', hnsec'⟩ := mix_mix_inj (hsec s hs) (hsec t ht) (hnsec s hs) (hnsec t ht) heq
  cases s
  cases t
  exact congrArg₂ Ts.mk (congrArg Int64.ofUInt64 hsec') (UInt32.toUInt64_inj.mp hnsec')

theorem fingerprints_separate :
    (∀ a b, MixedField.DifferInOne MixedField.ofContent a b → contentFingerprint a ≠ contentFingerprint b) ∧
    (∀ a b, MixedField.DifferInOne MixedField.ofChange a b → Nfs.changeOf a ≠ Nfs.changeOf b) ∧
    ∀ (a : Attr) (s t : Ts), s.unsigned32 → t.unsigned32 → s ≠ t →
      contentFingerprint { a with mtime := s } ≠ contentFingerprint { a with mtime := t } ∧
        Nfs.changeOf { a with mtime := s } ≠ Nfs.changeOf { a with mtime := t } := by
  refine ⟨?_, ?_, fun a s t hs ht hne => ⟨fun heq => hne ?_, fun heq => hne ?_⟩⟩
  · rintro a b ⟨f, hf, hne, hsame⟩
    exact foldl_mix_ne (by decide) hf hne hsame _
  · rintro a b ⟨f, hf, hne, hsame⟩
    exact foldl_mix_ne (by decide) hf hne hsame _
  · exact Ts.mix_inj hs ht (mix_left_inj (mix_left_inj heq))
  · exact Ts.mix_inj hs ht (mix_left_inj (mix_left_inj (mix_left_inj heq)))

theorem fingerprints_separate_second :
    contentFingerprint { placeholderAttr .reg with mtime := ⟨0, 1⟩ } ≠
      contentFingerprint { placeholderAttr .reg with mtime := ⟨1, 0⟩ } :=
  (fingerprints_separate.2.2 (placeholderAttr .reg) ⟨0, 1⟩ ⟨1, 0⟩ (by decide) (by decide)
    (by decide)).1

end Mist
