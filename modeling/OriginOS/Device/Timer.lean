import OriginOS.Lib.System
import OriginOS.Thread.SchedInvariant

/-! The timer of `device/timer.c`: the count that `frequency_set` programs into the interval timer,
and how long `mtime_sleep` sleeps.

Time is counted in pulses of the interval timer's input clock, of which a second has 1193180. The
sleeping thread looks at `ticks` whenever it runs; between that, other code runs and interrupts
come in any order. -/

namespace OriginOS

open Lib

/-- The writes of `frequency_set`, as port and byte. The cast in `(uint8_t)counter_value>>8` is
applied before the shift. -/
def frequencySet (counterPort counterNo rwl counterMode : UInt8) (counterValue : UInt16) :
    List (Nat × UInt8) :=
  [(0x43, .ofNat (counterNo.toNat <<< 6 ||| rwl.toNat <<< 4 ||| counterMode.toNat <<< 1)),
    (counterPort.toNat, counterValue.toUInt8),
    (counterPort.toNat, .ofNat (counterValue.toUInt8.toNat >>> 8))]

/-- Counter 0 of the interval timer: the low byte of a count whose high byte is still to come, and
the count. -/
structure Pit where
  low : Option UInt8
  count : Nat

/-- A write to the interval timer. A control word for both bytes of counter 0 starts a new count. -/
def Pit.outb (p : Pit) : Nat × UInt8 → Pit
  | (port, data) =>
    if port = 0x43 then
      if data.toNat >>> 4 = 0b0011 then { p with low := none } else p
    else if port = 0x40 then
      match p.low with
      | none => { p with low := some data }
      | some low => ⟨none, low.toNat + 2 ^ 8 * data.toNat⟩
    else p

/-- The pulses from one interrupt to the next; a count of 0 stands for 2^16. -/
def Pit.period (p : Pit) : Nat := if p.count = 0 then 2 ^ 16 else p.count

def counter0Value : UInt16 := .ofNat (1193180 / 100)

/-- `timer_init`, as far as it concerns the interval timer. -/
def timerInit (p : Pit) : Pit := (frequencySet 0x40 0 3 2 counter0Value).foldl Pit.outb p

/-- `sleep_ticks` of `mtime_sleep`, with the 32-bit sum of `DIV_ROUND_UP`. -/
def sleepTicks (mSeconds : Nat) : Nat := (mSeconds + 1000 / 100 - 1) % 2 ^ 32 / (1000 / 100)

/-- `mtime_sleep` up to the loop of `ticks_to_sleep`. -/
def mtimeSleep (mSeconds : Nat) : Except Panic Nat := do
  assert (sleepTicks mSeconds > 0) ⟨"./device/timer.c", 57, "mtime_sleep", "sleep_ticks > 0"⟩
  pure (sleepTicks mSeconds)

/-- A thread in `ticks_to_sleep`: the scheduler, the pulses until the next interrupt, the pulses and
interrupts since the call, the thread with its variables, and whether it has returned. -/
structure Sleep where
  sched : Sched
  left : Nat
  time : Nat
  interrupts : Nat
  thread : Nat
  startTick : Nat
  sleepTicks : Nat
  returned : Bool

/-- A pulse of the clock, the test in the loop of `ticks_to_sleep`, or other code, which may do
anything to the scheduler but change `ticks`. -/
inductive SleepAct where
  | pulse
  | poll
  | other (sched : Sched)

def sleepExec (period : Nat) : SleepAct → Sleep → Except Panic Sleep
  | .pulse, w =>
    if w.left ≤ 1 then do
      let sched ← intrTimerHandler w.sched
      pure { w with
        sched, left := period, time := w.time + 1, interrupts := w.interrupts + 1 }
    else pure { w with left := w.left - 1, time := w.time + 1 }
  | .poll, w =>
    if (w.sched.ticks + 2 ^ 32 - w.startTick) % 2 ^ 32 < w.sleepTicks then do
      let sched ← threadYield w.sched
      pure { w with sched }
    else pure { w with returned := true }
  | .other sched, w => pure { w with sched }

def sleepGuard (w : Sleep) : SleepAct → Prop
  | .pulse => w.returned = false
  | .poll => w.returned = false ∧ w.sched.runningThread = w.thread
  | .other sched => w.returned = false ∧ sched.ticks = w.sched.ticks

/-- A call of `mtime_sleep` when `ticks` is `start`, with an interval timer that interrupts once a
period and is anywhere in it. -/
structure SleepInit (period mSeconds : Nat) (start : UInt32) (w : Sleep) : Prop where
  ticks : mtimeSleep mSeconds = .ok w.sleepTicks
  sched : w.sched.ticks = start.toNat
  startTick : w.startTick = start.toNat
  left : 1 ≤ w.left ∧ w.left ≤ period
  time : w.time = 0
  interrupts : w.interrupts = 0
  returned : w.returned = false

def sleepSystem (period mSeconds : Nat) (start : UInt32) : System Sleep SleepAct Panic where
  init := SleepInit period mSeconds start
  guard := sleepGuard
  exec := sleepExec period

/-- The two bytes that `frequency_set` writes to the counter's port are those of the count. -/
def Reassembles (v : UInt16) : Prop :=
  ∀ counterPort counterNo rwl counterMode, ∃ control low high : UInt8,
    frequencySet counterPort counterNo rwl counterMode v =
      [(0x43, control), (counterPort.toNat, low), (counterPort.toNat, high)] ∧
    low.toNat + 2 ^ 8 * high.toNat = v.toNat

/-- `mtime_sleep` does not return before `⌈mSeconds / 10⌉` interrupts have come, and one period of
11931 pulses fewer than that has passed. -/
def LongEnough (mSeconds : Nat) (start : UInt32) : Prop :=
  ∀ (p : Pit) (w : Sleep), (sleepSystem (timerInit p).period mSeconds start).Reachable w →
    w.returned = true → (mSeconds + 9) / 10 ≤ w.interrupts ∧
      ((mSeconds + 9) / 10 - 1) * 11931 ≤ w.time

/-! ### The scheduler and `ticks` -/

section Ticks

variable {s s' : Sched}

theorem threadUnblock_ticks {pthread : Nat} (h : threadUnblock pthread s = .ok s') :
    s'.ticks = s.ticks := by
  obtain ⟨-, -, h⟩ := bind_eq_ok.mp h
  dsimp only at h
  split at h
  · obtain ⟨-, -, h⟩ := bind_eq_ok.mp h
    split at h
    · exact nomatch h
    · obtain rfl := Except.ok.inj h
      rfl
  · obtain rfl := Except.ok.inj h
    rfl

theorem scheduleRequeue_ticks (h : scheduleRequeue s = .ok s') : s'.ticks = s.ticks := by
  unfold scheduleRequeue at h
  dsimp only at h
  split at h
  · obtain ⟨-, -, h⟩ := bind_eq_ok.mp h
    obtain rfl := Except.ok.inj h
    rfl
  · obtain rfl := Except.ok.inj h
    rfl

theorem scheduleNext_ticks (h : scheduleNext s = .ok s') : s'.ticks = s.ticks := by
  unfold scheduleNext at h
  split at h
  · exact nomatch h
  · obtain rfl := Except.ok.inj h
    rfl

theorem schedule_ticks (h : schedule s = .ok s') : s'.ticks = s.ticks := by
  obtain ⟨-, -, h⟩ := bind_eq_ok.mp h
  obtain ⟨s₁, hrequeue, h⟩ := bind_eq_ok.mp h
  rw [← scheduleRequeue_ticks hrequeue]
  dsimp only at h
  split at h
  · obtain ⟨s₂, hidle, hnext⟩ := bind_eq_ok.mp h
    rw [← threadUnblock_ticks hidle]
    exact scheduleNext_ticks hnext
  · exact scheduleNext_ticks h

theorem threadYield_ticks (h : threadYield s = .ok s') : s'.ticks = s.ticks := by
  obtain ⟨-, -, h⟩ := bind_eq_ok.mp h
  exact schedule_ticks (s := { intrDisable (s.saveIntr s.intrStatus) with
    threadReadyList := s.threadReadyList ++ [s.runningThread] }.setStatus s.runningThread .ready) h

theorem intrTimerHandler_ticks (h : intrTimerHandler s = .ok s') :
    s'.ticks = (s.ticks + 1) % 2 ^ 32 := by
  obtain ⟨-, -, h⟩ := bind_eq_ok.mp h
  dsimp only at h
  split at h
  · exact schedule_ticks h
  · obtain rfl := Except.ok.inj h
    rfl

end Ticks

/-! ### The interrupts while a thread sleeps -/

section Sleeping

variable {period mSeconds : Nat} {start : UInt32}

/-- The loop is left only when enough interrupts have been counted, even if `ticks` has wrapped
around in between. -/
structure SleepInv (mSeconds : Nat) (start : UInt32) (w : Sleep) : Prop where
  ticks : w.sched.ticks = (start.toNat + w.interrupts) % 2 ^ 32
  startTick : w.startTick = start.toNat
  rounded : w.sleepTicks = sleepTicks mSeconds
  returned : w.returned = true → sleepTicks mSeconds ≤ w.interrupts

theorem SleepInit.inv {w : Sleep} (h : SleepInit period mSeconds start w) :
    SleepInv mSeconds start w := by
  have hlt := start.toNat_lt
  obtain ⟨-, -, hticks⟩ := bind_eq_ok.mp h.ticks
  refine ⟨?_, h.startTick, (Except.ok.inj hticks).symm, fun hret => ?_⟩
  · rw [h.sched, h.interrupts]
    omega
  · rw [h.returned] at hret
    exact absurd hret (by decide)

theorem SleepInv.step {w w' : Sleep} {a : SleepAct} (h : SleepInv mSeconds start w)
    (hstep : (sleepSystem period mSeconds start).Step w a w') : SleepInv mSeconds start w' := by
  obtain ⟨hguard, hexec⟩ := hstep
  have hticks := h.ticks
  cases a with
  | pulse =>
    have hret : w.returned = false := hguard
    simp only [sleepSystem, sleepExec] at hexec
    split at hexec
    · obtain ⟨sched, hsched, hw⟩ := bind_eq_ok.mp hexec
      obtain rfl := Except.ok.inj hw
      refine ⟨?_, h.startTick, h.rounded, fun hret' => ?_⟩
      · rw [intrTimerHandler_ticks hsched]
        dsimp only
        omega
      · rw [hret] at hret'
        exact absurd hret' (by decide)
    · obtain rfl := Except.ok.inj hexec
      exact ⟨h.ticks, h.startTick, h.rounded, h.returned⟩
  | poll =>
    simp only [sleepSystem, sleepExec] at hexec
    split at hexec
    · obtain ⟨sched, hsched, hw⟩ := bind_eq_ok.mp hexec
      obtain rfl := Except.ok.inj hw
      exact ⟨(threadYield_ticks hsched).trans h.ticks, h.startTick, h.rounded, h.returned⟩
    · next hpoll =>
      obtain rfl := Except.ok.inj hexec
      refine ⟨h.ticks, h.startTick, h.rounded, fun _ => ?_⟩
      rw [h.startTick, h.rounded] at hpoll
      have hlt := start.toNat_lt
      dsimp only
      omega
  | other sched =>
    obtain rfl := Except.ok.inj hexec
    exact ⟨hguard.2.trans h.ticks, h.startTick, h.rounded, h.returned⟩

theorem sleep_interrupts {w : Sleep} (h : (sleepSystem period mSeconds start).Reachable w)
    (hret : w.returned = true) : sleepTicks mSeconds ≤ w.interrupts :=
  (h.invariant (I := SleepInv mSeconds start) (fun _ hinit => SleepInit.inv hinit)
    fun _ _ _ hinv hstep => hinv.step hstep).returned hret

theorem sleepExec_interrupt {w : Sleep} {sched : Sched} (hleft : w.left ≤ 1)
    (h : intrTimerHandler w.sched = .ok sched) : sleepExec period .pulse w = .ok { w with
      sched, left := period, time := w.time + 1, interrupts := w.interrupts + 1 } := by
  simp only [sleepExec, if_pos hleft, h]
  rfl

variable (period) in
theorem sleepExec_count {w : Sleep} (hleft : 1 < w.left) : sleepExec period .pulse w =
    .ok { w with left := w.left - 1, time := w.time + 1 } := by
  simp only [sleepExec, if_neg (Nat.not_le.mpr hleft)]
  rfl

variable (period) in
theorem sleepExec_return {w : Sleep}
    (h : w.sleepTicks ≤ (w.sched.ticks + 2 ^ 32 - w.startTick) % 2 ^ 32) :
    sleepExec period .poll w = .ok { w with returned := true } := by
  simp only [sleepExec, if_neg (Nat.not_lt.mpr h)]
  rfl

def tickSched (ticks : Nat) : Sched where
  task _ := ⟨1, .runing, 31, 31, 0, 0x19870916⟩
  runningThread := 0xc009e000
  mainThread := 0xc009e000
  idleThread := 0xc0101000
  threadReadyList := []
  threadAllList := [0xc009e000]
  intrStatus := .on
  resume _ := .on
  ticks := ticks
  nextPid := 2

/-- The main thread asleep, when `n` interrupts have come in a row and nothing else has happened. -/
def asleep (mSeconds : Nat) (start : UInt32) (n time left : Nat) : Sleep :=
  ⟨tickSched ((start.toNat + n) % 2 ^ 32), left, time, n, 0xc009e000, start.toNat,
    sleepTicks mSeconds, false⟩

theorem asleep_interrupt {n time left : Nat}
    (h : (sleepSystem period mSeconds start).Reachable (asleep mSeconds start n time (left + 1))) :
    (sleepSystem period mSeconds start).Reachable
      (asleep mSeconds start (n + 1) (time + left + 1) period) := by
  induction left generalizing time with
  | zero =>
    have hticks : ((start.toNat + n) % 2 ^ 32 + 1) % 2 ^ 32 = (start.toNat + (n + 1)) % 2 ^ 32 := by
      omega
    obtain ⟨sched, hsched⟩ : ∃ sched,
        intrTimerHandler (tickSched ((start.toNat + n) % 2 ^ 32)) = .ok sched := ⟨_, rfl⟩
    have hpulse : (sleepSystem period mSeconds start).Step (asleep mSeconds start n time 1) .pulse
        { asleep mSeconds start (n + 1) (time + 1) period with sched } := by
      refine ⟨rfl, ?_⟩
      exact sleepExec_interrupt (w := asleep mSeconds start n time 1) (Nat.le_refl 1) hsched
    refine (h.next hpulse).next (a := .other (tickSched ((start.toNat + (n + 1)) % 2 ^ 32)))
      ⟨⟨rfl, ?_⟩, rfl⟩
    rw [intrTimerHandler_ticks hsched]
    exact hticks.symm
  | succ left ih =>
    have hpulse : (sleepSystem period mSeconds start).Step
        (asleep mSeconds start n time (left + 1 + 1)) .pulse
        (asleep mSeconds start n (time + 1) (left + 1)) := by
      refine ⟨rfl, ?_⟩
      exact sleepExec_count period (w := asleep mSeconds start n time (left + 1 + 1))
        (by show 1 < left + 1 + 1; omega)
    have := ih (h.next hpulse)
    rwa [show time + 1 + left + 1 = time + (left + 1) + 1 by omega] at this

variable (start) in
theorem asleep_reachable (hperiod : 1 ≤ period) (hticks : mtimeSleep mSeconds =
    .ok (sleepTicks mSeconds)) (n : Nat) : (sleepSystem period mSeconds start).Reachable
      (asleep mSeconds start (n + 1) (1 + n * period) period) := by
  induction n with
  | zero =>
    have hinit : SleepInit period mSeconds start (asleep mSeconds start 0 0 1) :=
      ⟨hticks, Nat.mod_eq_of_lt start.toNat_lt, rfl, ⟨Nat.le_refl 1, hperiod⟩, rfl, rfl, rfl⟩
    have := asleep_interrupt (System.Reachable.init hinit)
    rwa [Nat.zero_mul]
  | succ n ih =>
    obtain ⟨p, rfl⟩ : ∃ p, period = p + 1 := ⟨period - 1, by omega⟩
    have hnext := asleep_interrupt ih
    have htime : 1 + n * (p + 1) + p + 1 = 1 + (n + 1) * (p + 1) := by
      rw [Nat.add_mul n 1]
      omega
    rwa [htime] at hnext

variable (period mSeconds start) in
theorem sleep_returns {n : Nat} (hn : sleepTicks mSeconds = n + 1) (hperiod : 1 ≤ period) :
    ∃ w, (sleepSystem period mSeconds start).Reachable w ∧ w.returned = true ∧
      w.time = 1 + n * period := by
  have hticks : mtimeSleep mSeconds = .ok (sleepTicks mSeconds) := by
    unfold mtimeSleep
    rw [assert_of (decide_eq_true (by omega))]
    rfl
  have hreach := asleep_reachable start hperiod hticks n
  refine ⟨{ asleep mSeconds start (n + 1) (1 + n * period) period with returned := true },
    hreach.next (a := .poll) ⟨⟨rfl, rfl⟩, sleepExec_return period ?_⟩, rfl, rfl⟩
  have hle : sleepTicks mSeconds < 2 ^ 32 := by
    unfold sleepTicks
    omega
  have hlt := start.toNat_lt
  show sleepTicks mSeconds ≤
    ((start.toNat + (n + 1)) % 2 ^ 32 + 2 ^ 32 - start.toNat) % 2 ^ 32
  omega

end Sleeping

/-! ### The time that passes -/

theorem frequencySet_high (v : UInt16) : UInt8.ofNat (v.toUInt8.toNat >>> 8) = 0 := by
  have hlt := v.toUInt8.toNat_lt
  rw [Nat.shiftRight_eq_div_pow, show v.toUInt8.toNat / 2 ^ 8 = 0 by omega]
  rfl

theorem reassembles_iff {v : UInt16} : Reassembles v ↔ v.toNat < 2 ^ 8 := by
  have hlow : v.toUInt8.toNat = v.toNat % 2 ^ 8 := UInt16.toNat_toUInt8 v
  constructor
  · intro h
    obtain ⟨control, low, high, hwrites, hv⟩ := h 0x40 0 3 2
    unfold frequencySet at hwrites
    simp only [frequencySet_high, List.cons.injEq, Prod.mk.injEq, true_and, and_true] at hwrites
    obtain ⟨-, rfl, rfl⟩ := hwrites
    rw [← hv, hlow, UInt8.toNat_zero]
    omega
  · intro hv counterPort counterNo rwl counterMode
    refine ⟨_, _, _, rfl, ?_⟩
    rw [frequencySet_high, hlow, UInt8.toNat_zero]
    omega

theorem period_timerInit (p : Pit) : (timerInit p).period = 155 := rfl

theorem longEnough_iff {mSeconds : Nat} {start : UInt32} (hmin : 1 ≤ mSeconds)
    (hmax : mSeconds ≤ 2 ^ 32 - 10) : LongEnough mSeconds start ↔ mSeconds ≤ 10 := by
  have hticks : sleepTicks mSeconds = (mSeconds + 9) / 10 := by
    unfold sleepTicks
    omega
  constructor
  · intro h
    by_contra hlong
    obtain ⟨n, hn⟩ : ∃ n, (mSeconds + 9) / 10 = n + 2 := ⟨(mSeconds + 9) / 10 - 2, by omega⟩
    obtain ⟨w, hreach, hret, htime⟩ := sleep_returns 155 mSeconds start (n := n + 1) (by omega)
      (by decide)
    have hlate := (h ⟨none, 0⟩ w (by rwa [period_timerInit]) hret).2
    omega
  · intro hm p w hreach hret
    have hint := sleep_interrupts hreach hret
    rw [hticks] at hint
    exact ⟨hint, by omega⟩

/-- The count is programmed and the sleep lasts as long as it should just for counts of one byte
and for sleeps of one period: `frequency_set` loses the high byte of the count, so that the timer
interrupts 77 times as often as intended. The number of interrupts is right for every sleep. -/
theorem mtime_sleep_long_enough_iff (v : UInt16) (mSeconds : Nat) (start : UInt32)
    (hmin : 1 ≤ mSeconds) (hmax : mSeconds ≤ 2 ^ 32 - 10) :
    Reassembles v ∧ LongEnough mSeconds start ↔ v.toNat < 2 ^ 8 ∧ mSeconds ≤ 10 := by
  rw [reassembles_iff, longEnough_iff hmin hmax]

/-- A sleep of 10 ms with `ticks` about to wrap around. -/
theorem mtime_sleep_long_enough_wraps : Reassembles 155 ∧ LongEnough 10 0xffffffff :=
  (mtime_sleep_long_enough_iff 155 10 0xffffffff (by decide) (by decide)).mpr (by decide)

/-- The count of 100 interrupts a second is not programmed, and a sleep of 20 ms may be over after
156 pulses. -/
theorem mtime_sleep_too_short : ¬ Reassembles counter0Value ∧ ¬ LongEnough 20 0 := by
  rw [reassembles_iff, longEnough_iff (by decide) (by decide)]
  decide

end OriginOS
