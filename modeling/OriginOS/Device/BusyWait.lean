import OriginOS.Device.IdeRegs
import Mathlib.Data.Nat.Find

/-! `busy_wait` of `device/ide.c` on a drive that may put anything into the status register: how
often it sleeps, and what it returns. -/

namespace OriginOS

open Lib

/-- The reads of the status register in the condition of the loop, and the calls of
`mtime_sleep(10)`. -/
structure Polls where
  polls : Nat
  sleeps : Nat
deriving DecidableEq, Repr

def Busy (status : UInt8) : Prop := status &&& 0x80 ≠ 0

def Drq (status : UInt8) : Prop := status &&& 0x08 ≠ 0

instance (status : UInt8) : Decidable (Busy status) := inferInstanceAs (Decidable (_ ≠ _))

instance (status : UInt8) : Decidable (Drq status) := inferInstanceAs (Decidable (_ ≠ _))

/-- The loop of `busy_wait`, with at most `fuel` passes; read number `k` of the status register
gives `status k`. The operand of `-=` is the value of `10 >= 0`. -/
def busyWaitLoop (status : Nat → UInt8) : Nat → UInt16 → Polls → Option (Bool × Polls)
  | 0, _, _ => none
  | fuel + 1, timeLimit, p =>
    let timeLimit := timeLimit - .ofNat (decide ((10 : Int) ≥ 0)).toNat
    if timeLimit ≠ 0 then
      if ¬ Busy (status p.polls) then
        some (decide (Drq (status (p.polls + 1))), { p with polls := p.polls + 1 })
      else busyWaitLoop status fuel timeLimit ⟨p.polls + 1, p.sleeps + 1⟩
    else some (false, p)

def busyWait (status : Nat → UInt8) (fuel : Nat) : Option (Bool × Polls) :=
  busyWaitLoop status fuel (30 * 1000) ⟨0, 0⟩

/-- Poll number `k` is the first with the drive not busy. -/
def FirstIdle (status : Nat → UInt8) (k : Nat) : Prop :=
  ¬ Busy (status k) ∧ ∀ j < k, Busy (status j)

/-- `busy_wait` returns after at most 3000 calls of `mtime_sleep(10)`: false if the drive was busy
in every poll, and otherwise what the read behind the first other poll says. -/
def KeepsLimit (status : Nat → UInt8) : Prop :=
  ∃ fuel b p, busyWait status fuel = some (b, p) ∧ p.sleeps ≤ 3000 ∧
    ((∀ k < p.polls, Busy (status k)) → b = false) ∧
    ∀ k < p.polls, FirstIdle status k → (b = true ↔ Drq (status (k + 1)))

section Loop

variable {status : Nat → UInt8} {fuel t : Nat} {p : Polls}

theorem timeLimit_sub (ht : t + 1 < 2 ^ 16) :
    UInt16.ofNat (t + 1) - .ofNat (decide ((10 : Int) ≥ 0)).toNat = .ofNat t := by
  apply UInt16.toNat_inj.mp
  rw [show (decide ((10 : Int) ≥ 0)).toNat = 1 from rfl, UInt16.toNat_sub_of_le,
    UInt16.toNat_ofNat', UInt16.toNat_ofNat', UInt16.toNat_ofNat']
  · omega
  · rw [UInt16.le_iff_toNat_le, UInt16.toNat_ofNat', UInt16.toNat_ofNat']
    omega

theorem timeLimit_ne_zero (ht : t + 1 < 2 ^ 16) : UInt16.ofNat (t + 1) ≠ 0 := by
  intro h
  have := congrArg UInt16.toNat h
  rw [UInt16.toNat_ofNat', UInt16.toNat_zero] at this
  omega

theorem busyWaitLoop_over : busyWaitLoop status (fuel + 1) 1 p = some (false, p) := rfl

theorem busyWaitLoop_idle (ht : t + 2 < 2 ^ 16) (h : ¬ Busy (status p.polls)) :
    busyWaitLoop status (fuel + 1) (.ofNat (t + 2)) p =
      some (decide (Drq (status (p.polls + 1))), { p with polls := p.polls + 1 }) := by
  unfold busyWaitLoop
  rw [timeLimit_sub ht]
  dsimp only
  rw [if_pos (timeLimit_ne_zero (by omega)), if_pos h]

theorem busyWaitLoop_busy (ht : t + 2 < 2 ^ 16) (h : Busy (status p.polls)) :
    busyWaitLoop status (fuel + 1) (.ofNat (t + 2)) p =
      busyWaitLoop status fuel (.ofNat (t + 1)) ⟨p.polls + 1, p.sleeps + 1⟩ := by
  rw [busyWaitLoop, timeLimit_sub ht, if_pos (timeLimit_ne_zero (by omega)), if_neg (not_not.mpr h)]

theorem busyWaitLoop_all (ht : t + 1 < 2 ^ 16) (hfuel : t < fuel)
    (h : ∀ k < t, Busy (status (p.polls + k))) :
    busyWaitLoop status fuel (.ofNat (t + 1)) p = some (false, ⟨p.polls + t, p.sleeps + t⟩) := by
  induction t generalizing fuel p with
  | zero =>
    obtain ⟨fuel, rfl⟩ : ∃ n, fuel = n + 1 := ⟨fuel - 1, by omega⟩
    exact busyWaitLoop_over
  | succ t ih =>
    obtain ⟨fuel, rfl⟩ : ∃ n, fuel = n + 1 := ⟨fuel - 1, by omega⟩
    rw [busyWaitLoop_busy ht (h 0 (by omega)), ih (by omega) (by omega)]
    · rw [show p.polls + 1 + t = p.polls + (t + 1) by omega,
        show p.sleeps + 1 + t = p.sleeps + (t + 1) by omega]
    · intro k hk
      rw [show p.polls + 1 + k = p.polls + (k + 1) by omega]
      exact h (k + 1) (by omega)

theorem busyWaitLoop_first {k : Nat} (ht : t + 1 < 2 ^ 16) (hfuel : t < fuel) (hk : k < t)
    (hidle : ¬ Busy (status (p.polls + k))) (hbusy : ∀ j < k, Busy (status (p.polls + j))) :
    busyWaitLoop status fuel (.ofNat (t + 1)) p =
      some (decide (Drq (status (p.polls + k + 1))), ⟨p.polls + k + 1, p.sleeps + k⟩) := by
  induction k generalizing fuel t p with
  | zero =>
    obtain ⟨t, rfl⟩ : ∃ n, t = n + 1 := ⟨t - 1, by omega⟩
    obtain ⟨fuel, rfl⟩ : ∃ n, fuel = n + 1 := ⟨fuel - 1, by omega⟩
    exact busyWaitLoop_idle ht hidle
  | succ k ih =>
    obtain ⟨t, rfl⟩ : ∃ n, t = n + 1 := ⟨t - 1, by omega⟩
    obtain ⟨fuel, rfl⟩ : ∃ n, fuel = n + 1 := ⟨fuel - 1, by omega⟩
    have hpolls : ∀ j, p.polls + 1 + j = p.polls + (j + 1) := fun j => by omega
    rw [busyWaitLoop_busy ht (hbusy 0 (by omega)), ih (by omega) (by omega) (by omega)]
    · rw [hpolls, show p.sleeps + 1 + k = p.sleeps + (k + 1) by omega]
    · rw [hpolls]
      exact hidle
    · intro j hj
      rw [hpolls]
      exact hbusy (j + 1) (by omega)

theorem busyWaitLoop_fuel {timeLimit : UInt16} {r : Bool × Polls} (n : Nat)
    (h : busyWaitLoop status fuel timeLimit p = some r) :
    busyWaitLoop status (fuel + n) timeLimit p = some r := by
  induction fuel generalizing timeLimit p with
  | zero => exact nomatch h
  | succ fuel ih =>
    rw [Nat.succ_add]
    unfold busyWaitLoop at h ⊢
    dsimp only at h ⊢
    split at h
    · next hlimit =>
      rw [if_pos hlimit]
      split at h
      · next hidle =>
        rw [if_pos hidle]
        exact h
      · next hbusy =>
        rw [if_neg hbusy]
        exact ih h
    · next hlimit =>
      rw [if_neg hlimit]
      exact h

end Loop

section BusyWait

variable {status : Nat → UInt8}

theorem exists_firstIdle {k : Nat} (h : ¬ Busy (status k)) : ∃ j ≤ k, FirstIdle status j := by
  have hex : ∃ j, ¬ Busy (status j) := ⟨k, h⟩
  exact ⟨Nat.find hex, Nat.find_le h, Nat.find_spec hex, fun j hj =>
    not_not.mp (Nat.find_min hex hj)⟩

theorem FirstIdle.unique {j k : Nat} (hj : FirstIdle status j) (hk : FirstIdle status k) :
    j = k := by
  rcases Nat.lt_trichotomy j k with hlt | heq | hgt
  · exact absurd (hk.2 j hlt) hj.1
  · exact heq
  · exact absurd (hj.2 k hgt) hk.1

theorem busyWait_all {fuel : Nat} (hfuel : 29999 < fuel) (h : ∀ k < 29999, Busy (status k)) :
    busyWait status fuel = some (false, ⟨29999, 29999⟩) := by
  have hloop := busyWaitLoop_all (p := ⟨0, 0⟩) (t := 29999) (by decide) hfuel
    fun k hk => by rw [Nat.zero_add]; exact h k hk
  rwa [Nat.zero_add] at hloop

theorem busyWait_first {fuel k : Nat} (hfuel : 29999 < fuel) (hk : k < 29999)
    (h : FirstIdle status k) :
    busyWait status fuel = some (decide (Drq (status (k + 1))), ⟨k + 1, k⟩) := by
  have hloop := busyWaitLoop_first (p := ⟨0, 0⟩) (t := 29999) (k := k) (by decide) hfuel hk
    (by rw [Nat.zero_add]; exact h.1) fun j hj => by rw [Nat.zero_add]; exact h.2 j hj
  rwa [Nat.zero_add] at hloop

theorem not_keepsLimit (hbusy : ∀ k ≤ 3000, Busy (status k)) : ¬ KeepsLimit status := by
  rintro ⟨fuel, b, p, hwait, hsleeps, -⟩
  have hwait : busyWait status (fuel + 30000) = some (b, p) := busyWaitLoop_fuel 30000 hwait
  by_cases hall : ∀ k < 29999, Busy (status k)
  · rw [busyWait_all (by omega) hall] at hwait
    obtain ⟨-, rfl⟩ := Prod.mk.inj (Option.some.inj hwait)
    exact absurd hsleeps (by decide)
  · obtain ⟨k, hk⟩ := not_forall.mp hall
    obtain ⟨hk, hidle⟩ := Classical.not_imp.mp hk
    obtain ⟨j, hj, hfirst⟩ := exists_firstIdle hidle
    rw [busyWait_first (by omega) (by omega) hfirst] at hwait
    obtain ⟨-, rfl⟩ := Prod.mk.inj (Option.some.inj hwait)
    exact hfirst.1 (hbusy j hsleeps)

end BusyWait

/-- `busy_wait` keeps its 30 seconds just when the drive is not busy in one of the first 3001 polls.
The counter loses 1 for every 10 ms, so that the loop goes on for 29999 polls. -/
theorem busy_wait_limit_iff (status : Nat → UInt8) :
    KeepsLimit status ↔ ∃ k ≤ 3000, ¬ Busy (status k) := by
  constructor
  · intro h
    by_contra hnone
    refine not_keepsLimit (fun k hk => ?_) h
    by_contra hidle
    exact hnone ⟨k, hk, hidle⟩
  · rintro ⟨k, hk, hidle⟩
    obtain ⟨j, hj, hfirst⟩ := exists_firstIdle hidle
    refine ⟨30000, _, _, busyWait_first (by decide) (by omega) hfirst, ?_, fun hall => ?_, ?_⟩
    · show j ≤ 3000
      omega
    · exact absurd (hall j (Nat.lt_succ_self j)) hfirst.1
    · intro i _ hi
      rw [hi.unique hfirst]
      exact decide_eq_true_iff

/-- A drive that stays busy. -/
theorem busy_wait_over_limit : ¬ KeepsLimit fun _ => 0x80 :=
  not_keepsLimit fun _ _ => by decide

/-! ### The drive of the register model -/

namespace Regs

/-- What the status register of the channel says in read number `k` from now on. -/
def Channel.status (d : Channel) (k : Nat) : UInt8 :=
  if k < d.busy then 0x80 else if d.pending then 0x48 else 0x40

/-- The loop of the register model, which does not count, is the loop on these reads. -/
theorem busyWaitLoop_eq {status : Nat → UInt8} {t : Nat} {d d' : Channel} {b : Bool} (p : Polls)
    (ht : t + 1 < 2 ^ 16) (hstatus : ∀ k, status (p.polls + k) = d.status k)
    (h : busyWaitLoop t d = .ok (b, d')) :
    ∃ q, OriginOS.busyWaitLoop status (t + 1) (.ofNat (t + 1)) p = some (b, q) := by
  induction t generalizing d p with
  | zero =>
    obtain ⟨rfl, -⟩ := Prod.mk.inj (Except.ok.inj h)
    exact ⟨p, busyWaitLoop_over⟩
  | succ t ih =>
    have hfirst := hstatus 0
    unfold Channel.status at hfirst
    rw [Nat.add_zero] at hfirst
    by_cases hzero : d.busy = 0
    · have hsecond := hstatus 1
      unfold Channel.status at hsecond
      rw [if_neg (by omega)] at hfirst hsecond
      have hidle : (if d.pending then 0x48 else 0x40 : UInt8) &&& 0x80 = 0 := by
        split <;> rfl
      rw [busyWaitLoop, bind_of_ok (inbStatus_idle hzero), if_pos hidle,
        bind_of_ok (inbStatus_idle hzero)] at h
      obtain ⟨rfl, -⟩ := Prod.mk.inj (Except.ok.inj h)
      refine ⟨{ p with polls := p.polls + 1 }, (busyWaitLoop_idle ht ?_).trans ?_⟩
      · rw [hfirst]
        exact not_not.mpr hidle
      · rw [hsecond]
        rfl
    · rw [if_pos (by omega)] at hfirst
      rw [busyWaitLoop, bind_of_ok (inbStatus_busy hzero), if_neg (by decide)] at h
      rw [busyWaitLoop_busy ht (by rw [hfirst]; decide)]
      refine ih _ (by omega) (fun k => ?_) h
      rw [show p.polls + 1 + k = p.polls + (k + 1) by omega, hstatus]
      exact if_congr (by show k + 1 < d.busy ↔ k < d.busy - 1; omega) rfl rfl

/-- The drive of the register model is one of those that `busy_wait` has been looked at with. -/
theorem busyWait_eq {d d' : Channel} {b : Bool} (h : busyWait d = .ok (b, d')) :
    ∃ q, OriginOS.busyWait d.status 30000 = some (b, q) :=
  busyWaitLoop_eq ⟨0, 0⟩ (by decide) (fun k => by rw [Nat.zero_add]) h

end Regs

end OriginOS
