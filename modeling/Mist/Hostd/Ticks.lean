import Mist.Hostd.Optimistic
import Mist.Hostd.Times
import Mist.Runs

/-! The clock of optimistic times, under any interleaving of the threads that ask it. -/

namespace Mist

open List Option Runs UInt64

theorem Ts.before_of_nanos {s t : Ts} (ht : t.Normal) (h : s.nanos < t.nanos) : s.before t := by
  have ht' := UInt32.lt_iff_toNat_lt.mp ht
  simp only [before, nanos, Bool.or_eq_true, Bool.and_eq_true, decide_eq_true_eq,
    Int64.lt_iff_toInt_lt, UInt32.lt_iff_toNat_lt, ← Int64.toInt_inj] at h ⊢
  simp at ht'
  omega

namespace Optimistic

theorem tsOfNanos_normal (n : UInt64) : (tsOfNanos n).Normal := by
  rw [Ts.Normal, UInt32.lt_iff_toNat_lt]
  simp [tsOfNanos]
  omega

theorem nanos_tsOfNanos (n : UInt64) : (tsOfNanos n).nanos = n.toNat := by
  have hn := n.toNat_lt
  have hsec : (n / 1000000000).toInt64.toInt = n.toNat / 1000000000 := by
    have hword : (n / 1000000000).toBitVec.toNat = n.toNat / 1000000000 := rfl
    show (n / 1000000000).toBitVec.toInt = _
    rw [BitVec.toInt_eq_toNat_cond, hword]
    omega
  simp [Ts.nanos, tsOfNanos, hsec]
  omega

theorem saturatingMul_toNat (a b : UInt64) :
    (saturatingMul a b).toNat = min (a.toNat * b.toNat) 18446744073709551615 := by
  unfold saturatingMul
  split_ifs with h
  · rw [UInt64.toNat_mul, Nat.mod_eq_of_lt h]
    omega
  · have hmax : u64Max.toNat = 18446744073709551615 := rfl
    omega

/-- The floor in nanoseconds, where it does not saturate. -/
theorem floorNanos_toNat {floor : Ts} (hfloor : floor.nanos < 18446744073709551615) :
    let sec := if floor.sec < 0 then 0 else floor.sec.toUInt64
    let nanos := saturatingAdd (saturatingMul sec 1000000000) floor.nsec.toUInt64
    floor.nanos ≤ nanos.toNat ∧ nanos.toNat < 18446744073709551615 := by
  have hsec : ((if floor.sec < 0 then 0 else floor.sec.toUInt64).toNat : Int) =
      max 0 floor.sec.toInt := by
    split_ifs with hneg
    · exact (max_eq_left (Int64.lt_iff_toInt_lt.mp hneg).le).symm
    · rw [toNat_of_nonneg (Int64.not_lt.mp hneg)]
      exact (max_eq_right (Int64.le_iff_toInt_le.mp (Int64.not_lt.mp hneg))).symm
  have hnsec := floor.nsec.toNat_lt
  have hgiga : (1000000000 : UInt64).toNat = 1000000000 := rfl
  simp only [saturatingAdd_toNat, saturatingMul_toNat, Ts.nanos, UInt32.toNat_toUInt64, hgiga] at *
  omega

/-- In range, the next time is after the floor and the last one. -/
theorem nextOptimistic_later {now clock : UInt64} {floor : Ts} (hnow : now < u64Max)
    (hfloor : floor.nanos < 18446744073709551615) (hclock : clock < u64Max) :
    floor.nanos < (tsOfNanos (nextOptimistic now clock floor)).nanos ∧
      clock.toNat < (tsOfNanos (nextOptimistic now clock floor)).nanos := by
  obtain ⟨hle, hlt⟩ := floorNanos_toNat hfloor
  have hnow' : now.toNat < 18446744073709551615 := UInt64.lt_iff_toNat_lt.mp hnow
  have hclock' : clock.toNat < 18446744073709551615 := lt_iff_toNat_lt.mp hclock
  rw [nanos_tsOfNanos, nextOptimistic, UInt64.toNat_add, maxU64_toNat, maxU64_toNat,
    Nat.mod_eq_of_lt] <;> rw [toNat_one] <;> omega

/-- A call of `next_optimistic_ts`: its reading of the time, and the counter as it last saw it.
`since` are the times given out when it began. -/
structure Tick where
  now : UInt64
  floor : Ts
  since : List Ts
  prev : Option UInt64

structure Issued where
  floor : Ts
  since : List Ts
  result : Ts

structure Clock where
  clock : UInt64
  calls : List Tick
  issued : List Issued

namespace Clock

def start : Clock := ⟨0, [], []⟩

/-- `load` is the first load of a call, or an exchange that fails. -/
inductive Action where
  | begin (now : UInt64) (floor : Ts)
  | load (i : Nat)
  | exchange (i : Nat)

def step (s : Clock) : Action → Option Clock
  | .begin now floor =>
    some { s with calls := s.calls ++ [⟨now, floor, s.issued.map Issued.result, none⟩] }
  | .load i => do
    let call ← s.calls[i]?
    return { s with calls := s.calls.set i { call with prev := some s.clock } }
  | .exchange i => do
    let call ← s.calls[i]?
    guard (call.prev = some s.clock)
    let next := nextOptimistic call.now s.clock call.floor
    return ⟨next, s.calls.eraseIdx i, s.issued ++ [⟨call.floor, call.since, tsOfNanos next⟩]⟩

/-- Neither the readings, the floors nor the counter are at the end of the range of nanoseconds. -/
def fits (s : Clock) : Action → Bool
  | .begin now floor => now < u64Max && floor.nanos < 18446744073709551615
  | .load _ => true
  | .exchange _ => s.clock < u64Max

end Clock

/-- A time of normal form, later than its floor and than those given out before the call. -/
structure Issued.Right (u : Issued) : Prop where
  floor : u.floor.before u.result
  normal : u.result.Normal
  since : ∀ t ∈ u.since, t.before u.result

namespace Clock

structure Sound (s : Clock) : Prop where
  calls : ∀ c ∈ s.calls, c.now < u64Max ∧ c.floor.nanos < 18446744073709551615 ∧
    ∀ t ∈ c.since, t.nanos ≤ s.clock.toNat
  issued : ∀ u ∈ s.issued, u.Right ∧ u.result.nanos ≤ s.clock.toNat
  nodup : (s.issued.map Issued.result).Nodup

variable {s s' : Clock} {a : Action}

theorem Sound.step (h : s.Sound) (hfits : s.fits a) (hstep : s.step a = some s') : s'.Sound := by
  cases a with
  | begin now floor =>
    cases hstep
    simp only [fits, Bool.and_eq_true, decide_eq_true_eq] at hfits
    refine ⟨fun c hc => ?_, h.issued, h.nodup⟩
    rcases mem_append_cases hc with hc | rfl
    · exact h.calls c hc
    refine ⟨hfits.1, hfits.2, fun t ht => ?_⟩
    obtain ⟨u, hu, rfl⟩ := mem_map.mp ht
    exact (h.issued u hu).2
  | load i =>
    obtain ⟨c, hc, ⟨⟩⟩ := bind_eq_some_iff.mp hstep
    exact ⟨forall_set h.calls (h.calls c (mem_of_getElem? hc)), h.issued, h.nodup⟩
  | exchange i =>
    obtain ⟨c, hc, hstep⟩ := bind_eq_some_iff.mp hstep
    obtain ⟨-, -, ⟨⟩⟩ := bind_eq_some_iff.mp hstep
    obtain ⟨hnow, hfloor, hsince⟩ := h.calls c (mem_of_getElem? hc)
    obtain ⟨hlater, hclock⟩ := nextOptimistic_later hnow hfloor (of_decide_eq_true hfits)
    have hnanos := nanos_tsOfNanos (nextOptimistic c.now s.clock c.floor)
    have hnormal := tsOfNanos_normal (nextOptimistic c.now s.clock c.floor)
    generalize tsOfNanos (nextOptimistic c.now s.clock c.floor) = next at *
    have hold : ∀ t : Ts, t.nanos ≤ s.clock.toNat → t.nanos < next.nanos :=
      fun t ht => Int.lt_of_le_of_lt ht hclock
    refine ⟨fun c' hc' => ?_, fun u hu => ?_, ?_⟩
    · obtain ⟨hnow', hfloor', hsince'⟩ := h.calls c' (mem_of_mem_eraseIdx hc')
      exact ⟨hnow', hfloor', fun t ht => hnanos ▸ (hold t (hsince' t ht)).le⟩
    · rcases mem_append_cases hu with hu | rfl
      · exact ⟨(h.issued u hu).1, hnanos ▸ (hold _ (h.issued u hu).2).le⟩
      · exact ⟨⟨Ts.before_of_nanos hnormal hlater, hnormal, fun t ht =>
          Ts.before_of_nanos hnormal (hold t (hsince t ht))⟩, hnanos.le⟩
    · rw [map_append]
      refine h.nodup.append (nodup_singleton _) fun t ht hnew => ?_
      obtain ⟨u, hu, rfl⟩ := mem_map.mp ht
      exact (hold _ (h.issued u hu).2).ne (congrArg Ts.nanos (mem_singleton.mp hnew))

/-- Every time given out is later than its floor and than those of the calls before it, of normal
form, and given out once. -/
theorem optimistic_times (h : Runs.Reaches step (fun s a => s.fits a) start s) :
    (∀ u ∈ s.issued, u.Right) ∧ (s.issued.map Issued.result).Nodup := by
  have hsound : s.Sound := h.inv ⟨by simp [start], by simp [start], by simp [start]⟩
    fun _ _ _ h hfits hstep => h.step hfits hstep
  exact ⟨fun u hu => (hsound.issued u hu).1, hsound.nodup⟩

theorem optimistic_times_pair : ∃ s, Runs.Reaches step (fun s a => s.fits a) start s ∧
    s.issued.map Issued.result = [⟨7, 1⟩, ⟨7, 2⟩] ∧ ∀ u ∈ s.issued, u.Right :=
  Reaches.exists_of_guarded_and
    [.begin 0 ⟨7, 0⟩, .begin 5 ⟨7, 0⟩, .load 0, .load 1, .exchange 1, .load 0, .exchange 0]
    (by decide +kernel) fun _ hs => (optimistic_times hs).1

/-- A floor in the year 2554 saturates, and the next time is that of the epoch. -/
theorem floor_overtaken : ∃ s, Runs.Reaches step (fun _ _ => True) start s ∧
    ∃ u ∈ s.issued, u.floor = ⟨18446744074, 0⟩ ∧ u.result = ⟨0, 0⟩ ∧ ¬ u.Right := by
  refine Reaches.exists_imp
    (fun s => ∃ u ∈ s.issued, u.floor = ⟨18446744074, 0⟩ ∧ u.result = ⟨0, 0⟩)
    [.begin 0 ⟨18446744074, 0⟩, .load 0, .exchange 0] (by decide +kernel) ?_
  rintro s - ⟨u, hu, hfloor, hresult⟩
  refine ⟨u, hu, hfloor, hresult, fun h => ?_⟩
  have hlater := h.floor
  rw [hfloor, hresult] at hlater
  exact absurd hlater (by decide)

end Clock

end Optimistic

end Mist
