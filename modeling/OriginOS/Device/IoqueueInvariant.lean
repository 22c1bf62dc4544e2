import OriginOS.Device.Ioqueue
import OriginOS.Thread.MachineSteps

/-! What every step of the threads that use a byte queue, and of the keyboard, keeps true: the
buffer holds what was put and not yet taken, a waiter slot names the thread that sleeps in
`ioq_wait` with the lock of the queue, and calls run with interrupts off. -/

namespace OriginOS

open Lib Sched

/-- The place is before the test of the loop in the call of a consumer or a producer. -/
def IoPc.testing : IoPc → Option Side
  | .getTest => some .consumer
  | .putTest _ => some .producer
  | _ => none

def IoPc.waiting : IoPc → Option Side
  | .getWait => some .consumer
  | .putWait _ => some .producer
  | _ => none

/-- The place is behind `ioq_wait`: a thread asleep here sleeps in it. -/
def IoPc.sleeping : IoPc → Option Side
  | .getRelease => some .consumer
  | .putRelease _ => some .producer
  | _ => none

def IoPc.next : IoPc → IoPc
  | .out => .out
  | .getTest => .getWait
  | .getWait => .getRelease
  | .getRelease => .getTest
  | .putTest byte => .putWait byte
  | .putWait byte => .putRelease byte
  | .putRelease byte => .putTest byte

/-- How often a thread has the lock at a place. -/
def IoPc.depth : IoPc → Nat
  | .getWait | .getRelease | .putWait _ | .putRelease _ => 1
  | .out | .getTest | .putTest _ => 0

/-- The queue is empty, for a consumer, or full, for a producer. -/
def Ioqueue.Stuck (q : Ioqueue) : Side → Prop
  | .consumer => q.tail = q.head
  | .producer => nextPos q.head = q.tail

instance (q : Ioqueue) : DecidablePred q.Stuck
  | .consumer => inferInstanceAs (Decidable (q.tail = q.head))
  | .producer => inferInstanceAs (Decidable (nextPos q.head = q.tail))

def Ioqueue.taken (q : Ioqueue) : Ioqueue :=
  { q with tail := nextPos q.tail, producer := none }

def Ioqueue.stored (byte : UInt8) (q : Ioqueue) : Ioqueue :=
  { q with
    buf := Function.update q.buf q.head byte, head := nextPos q.head, consumer := none }

theorem nextPos_eq {pos : Int} (h : 0 ≤ pos) (hlt : pos < buffSize) :
    nextPos pos = Ring.slot buffSize pos 1 := by
  unfold nextPos Ring.slot buffSize at *
  rw [Int.tmod_eq_emod_of_nonneg (by omega)]
  split <;> omega

section Queue

variable {q : Ioqueue}

theorem taken_toRing (h : q.Valid buffSize) : q.taken.toRing = q.toRing.pop buffSize := by
  unfold Ioqueue.taken Ring.pop
  rw [nextPos_eq h.tail_nonneg h.tail_lt]

theorem stored_toRing (h : q.Valid buffSize) (byte : UInt8) :
    (q.stored byte).toRing = q.toRing.push buffSize byte := by
  unfold Ioqueue.stored Ring.push
  rw [nextPos_eq h.head_nonneg h.head_lt]

theorem taken_contents (h : q.Valid buffSize) (hne : ¬ q.Stuck .consumer) :
    q.taken.Valid buffSize ∧
      q.contents buffSize = q.buf q.tail :: q.taken.contents buffSize := by
  rw [show q.taken.Valid buffSize ↔ q.taken.toRing.Valid buffSize from Iff.rfl, taken_toRing h]
  exact ⟨Ring.pop_valid h, Ring.contents_pop h fun hz => hne ((Ring.size_eq_zero h).mp hz)⟩

theorem stored_contents (h : q.Valid buffSize) (hne : ¬ q.Stuck .producer) (byte : UInt8) :
    (q.stored byte).Valid buffSize ∧
      (q.stored byte).contents buffSize = q.contents buffSize ++ [byte] := by
  rw [show (q.stored byte).Valid buffSize ↔ (q.stored byte).toRing.Valid buffSize from Iff.rfl,
    stored_toRing h]
  refine ⟨Ring.push_valid h byte, Ring.contents_push h ?_ byte⟩
  have hfull : ¬ (q.size buffSize : Int) + 1 = buffSize := by
    rw [← Ring.full_iff h, ← nextPos_eq h.head_nonneg h.head_lt]
    exact hne
  have hsize := Ring.size_lt h
  omega

end Queue

/-- The scheduler after the thread in a waiter slot, if any, was woken. -/
structure Woken (w : Option Nat) (s s' : Sched) : Prop where
  inv : s'.Inv
  all : s'.threadAllList = s.threadAllList
  idle : s'.idleThread = s.idleThread
  running : s'.runningThread = s.runningThread
  intr : s'.intrStatus = s.intrStatus
  resume : s'.resume = s.resume
  status : ∀ t, s'.status t = if w = some t then .ready else s.status t

theorem wakeupWaiter_ok {s : Sched} {q : Ioqueue} (side : Side) (h : s.Inv)
    (hw : ∀ t, q.waiter side = some t →
      t ∈ s.threadAllList ∧ (s.status t).isBlocked = true) :
    ∃ s', wakeupWaiter side s q = .ok (s', q.setWaiter side none) ∧
      Woken (q.waiter side) s s' := by
  cases hq : q.waiter side with
  | none =>
    have hsame : q.setWaiter side none = q := by
      cases side <;> exact congrArg _ hq.symm
    refine ⟨s, ?_, h, rfl, rfl, rfl, rfl, rfl, fun t => rfl⟩
    rw [wakeupWaiter, if_neg (not_not.mpr hq), hsame]
    rfl
  | some t =>
    obtain ⟨hall, hb⟩ := hw t hq
    refine ⟨unblocked t s, ?_, unblocked_inv h hall hb, rfl, rfl, rfl, rfl, rfl, fun u => ?_⟩
    · rw [wakeupWaiter, if_pos (by rw [hq]; exact Option.some_ne_none t), wakeup, hq]
      simp only [threadUnblock_ok h.toConsistent hb, ok_bind]
      rfl
    · rw [unblocked_status]
      simp only [Option.some.injEq, eq_comm]

theorem ioqTake_ok {s : Sched} {q : Ioqueue} (h : s.Inv) (hw : ∀ t, q.producer = some t →
    t ∈ s.threadAllList ∧ (s.status t).isBlocked = true) :
    ∃ s', ioqTake s q = .ok (s', q.taken, q.buf q.tail) ∧ Woken q.producer s s' := by
  obtain ⟨s', heq, hs'⟩ := wakeupWaiter_ok (q := { q with tail := nextPos q.tail })
    .producer h hw
  refine ⟨s', ?_, hs'⟩
  simp only [ioqTake, heq, ok_bind]
  rfl

theorem ioqStore_ok {s : Sched} {q : Ioqueue} (byte : UInt8) (h : s.Inv)
    (hw : ∀ t, q.consumer = some t → t ∈ s.threadAllList ∧ (s.status t).isBlocked = true) :
    ∃ s', ioqStore byte s q = .ok (s', q.stored byte) ∧ Woken q.consumer s s' := by
  obtain ⟨s', heq, hs'⟩ := wakeupWaiter_ok (q := { q with
    buf := Function.update q.buf q.head byte, head := nextPos q.head }) .consumer h hw
  exact ⟨s', heq, hs'⟩

theorem ioqWait_ok {s : Sched} {q : Ioqueue} {side : Side} (h : s.Inv)
    (hw : q.waiter side = none) :
    ∃ s', ioqWait side s q = .ok (s', q.setWaiter side (some s.runningThread)) ∧
      Blocked .blocked s s' := by
  obtain ⟨s', heq, hs'⟩ := threadBlock_ok h .blocked rfl
  refine ⟨s', ?_, hs'⟩
  rw [ioqWait, assert_of (decide_eq_true hw), ok_bind]
  simp only [heq, ok_bind]
  rfl

section Go

variable {k : IoPc} {s : Sched} {d : IoState} {side : Side}

theorem ioGo_stuck (hk : k.testing = some side) (hoff : s.intrStatus = .off)
    (hst : d.q.Stuck side) : ioGo k s d = .ok (s, d, k.next, some (.lockAcquire ())) := by
  cases k with
  | getTest =>
    obtain rfl : Side.consumer = side := Option.some.inj hk
    simp only [ioGo, ioqEmpty, assert_of (decide_eq_true hoff), ok_bind,
      show d.q.tail = d.q.head from hst, decide_true]
    rfl
  | putTest byte =>
    obtain rfl : Side.producer = side := Option.some.inj hk
    simp only [ioGo, ioqFull, assert_of (decide_eq_true hoff), ok_bind,
      show nextPos d.q.head = d.q.tail from hst, decide_true]
    rfl
  | _ => exact nomatch hk

theorem ioGo_getTest (hoff : s.intrStatus = .off) (hst : ¬ d.q.Stuck .consumer) :
    ioGo .getTest s d = ioqTake s d.q >>= fun r =>
      .ok (r.1, { d with q := r.2.1, got := d.got ++ [r.2.2] }, .out, none) := by
  simp only [ioGo, ioqEmpty, assert_of (decide_eq_true hoff), ok_bind,
    show ¬ d.q.tail = d.q.head from hst, decide_false]
  rfl

theorem ioGo_putTest (byte : UInt8) (hoff : s.intrStatus = .off) (hst : ¬ d.q.Stuck .producer) :
    ioGo (.putTest byte) s d = ioqStore byte s d.q >>= fun r =>
      .ok (r.1, { d with q := r.2, put := d.put ++ [byte] }, .out, none) := by
  simp only [ioGo, ioqFull, assert_of (decide_eq_true hoff), ok_bind,
    show ¬ nextPos d.q.head = d.q.tail from hst, decide_false]
  rfl

theorem ioGo_waiting (hk : k.waiting = some side) : ioGo k s d = ioqWait side s d.q >>= fun r =>
    .ok (r.1, { d with q := r.2 }, k.next, none) := by
  cases k with
  | getWait =>
    obtain rfl : Side.consumer = side := Option.some.inj hk
    rfl
  | putWait byte =>
    obtain rfl : Side.producer = side := Option.some.inj hk
    rfl
  | _ => exact nomatch hk

theorem ioGo_sleeping (hk : k.sleeping = some side) :
    ioGo k s d = .ok (s, d, k.next, some (.lockRelease ())) := by
  cases k with
  | getRelease => rfl
  | putRelease byte => rfl
  | _ => exact nomatch hk

end Go

structure IoInv (m : Machine Unit IoPc IoState) : Prop where
  sync : SyncInv m
  valid : m.data.q.Valid buffSize
  fifo : m.data.put = m.data.got ++ m.data.q.contents buffSize
  idle : (m.pc m.sched.idleThread).client = .out
  depth : ∀ t ∈ m.sched.threadAllList, m.depthOf t () = (m.pc t).client.depth
  unborn : ∀ t, t ∉ m.sched.threadAllList → m.depthOf t () = 0
  flag : ∀ t ∈ m.sched.threadAllList, (m.pc t).client ≠ .out → m.flag t = .off
  waiter : ∀ side t, m.data.q.waiter side = some t →
    t ≠ m.sched.idleThread ∧ m.Asleep t ∧ (m.pc t).client.sleeping = some side
  asleep : ∀ t, t ≠ m.sched.idleThread → m.Asleep t →
    ∃ side, (m.pc t).client.sleeping = some side ∧ m.data.q.waiter side = some t

namespace IoInv

variable {m m' : Machine Unit IoPc IoState}

theorem frame (h : IoInv m) (hinv : SyncInv m') (hframe : Frame ioClient.start m m') :
    IoInv m' := by
  have hborn : ∀ t, t ∈ m'.sched.threadAllList → t ∉ m.sched.threadAllList →
      (m'.pc t).client = .out := by
    intro t ht hold
    obtain ⟨k, hk, hpc⟩ := hframe.born t ht hold
    rw [hpc]
    exact hk
  refine ⟨hinv, by rw [hframe.data]; exact h.valid, by rw [hframe.data]; exact h.fifo, ?_,
    fun t ht => ?_, fun t ht => ?_, fun t ht hout => ?_, fun side t ht => ?_,
    fun t hti ht => ?_⟩
  · rw [hframe.idle, hframe.client _ h.sync.sema.sched.idle_mem]
    exact h.idle
  · rw [hframe.depthOf]
    by_cases hold : t ∈ m.sched.threadAllList
    · rw [hframe.client t hold, h.depth t hold]
    · rw [hborn t ht hold, h.unborn t hold]
      rfl
  · rw [hframe.depthOf]
    exact h.unborn t fun hold => ht (hframe.all t hold)
  · by_cases hold : t ∈ m.sched.threadAllList
    · rw [hframe.client t hold] at hout
      have hti : t ≠ m.sched.idleThread := by
        rintro rfl
        exact hout h.idle
      rw [hframe.flag t hold hti]
      exact h.flag t hold hout
    · exact absurd (hborn t ht hold) hout
  · rw [hframe.data] at ht
    obtain ⟨hti, hasleep, hclient⟩ := h.waiter side t ht
    exact ⟨hframe.idle.symm ▸ hti, (hframe.asleep t hti).mpr hasleep,
      by rw [hframe.client t hasleep.1]; exact hclient⟩
  · rw [hframe.idle] at hti
    have hold := (hframe.asleep t hti).mp ht
    rw [hframe.client t hold.1, hframe.data]
    exact h.asleep t hti hold

theorem moved (h : IoInv m) {s' : Sched} {d : IoState} {k k' : IoPc}
    {c : Option (SyncCall Unit)} (hpc : m.pc m.sched.runningThread = .run k)
    (hne : m.sched.runningThread ≠ m.sched.idleThread) (hmoved : ClientMoved s' d k' c m m')
    (hvalid : d.q.Valid buffSize) (hfifo : d.put = d.got ++ d.q.contents buffSize)
    (hdepth : c.elim k.depth (·.after () k.depth) = k'.depth)
    (hflag : k' ≠ .out → s'.intrOf m.sched.runningThread = .off)
    (hwaiter : ∀ side t, d.q.waiter side = some t → (s'.status t).isBlocked = true ∧
      (if t = m.sched.runningThread then k'.sleeping = some side
        else m.data.q.waiter side = some t))
    (hasleep : ∀ t, t ≠ m.sched.idleThread → t ∈ m.sched.threadAllList → (m.pc t).isRun →
      (s'.status t).isBlocked = true →
      if t = m.sched.runningThread then
        ∃ side, k'.sleeping = some side ∧ d.q.waiter side = some t
      else m.Asleep t ∧ ∀ side, m.data.q.waiter side = some t → d.q.waiter side = some t) :
    IoInv m' := by
  have hcur : (m.pc m.sched.runningThread).isRun := by rw [hpc]; trivial
  have hmem := h.sync.sema.sched.running_mem
  refine ⟨hmoved.inv, by rw [hmoved.data]; exact hvalid, by rw [hmoved.data]; exact hfifo, ?_,
    fun t ht => ?_, fun t ht => ?_, fun t ht hout => ?_, fun side t ht => ?_,
    fun t hti ht => ?_⟩
  · rw [hmoved.idle, hmoved.pc _ hne.symm]
    exact h.idle
  · rw [hmoved.all] at ht
    rw [hmoved.depthOf]
    split
    · next heq =>
      rw [heq, h.depth _ hmem, hmoved.client, hpc]
      exact hdepth
    · next hther => rw [hmoved.pc t hther, h.depth t ht]
  · rw [hmoved.all] at ht
    have hcase : t ≠ m.sched.runningThread := fun heq => ht (heq ▸ hmem)
    rw [hmoved.depthOf, if_neg hcase]
    exact h.unborn t ht
  · rw [hmoved.all] at ht
    rw [hmoved.flag]
    split
    · next heq =>
      rw [heq, hmoved.client] at hout
      rw [heq]
      exact hflag hout
    · next hother =>
      rw [hmoved.pc t hother] at hout
      exact h.flag t ht hout
  · rw [hmoved.data] at ht
    obtain ⟨hb, hside⟩ := hwaiter side t ht
    by_cases hcase : t = m.sched.runningThread
    · rw [if_pos hcase] at hside
      subst hcase
      refine ⟨hmoved.idle.symm ▸ hne, (hmoved.asleep _ hne).mpr ⟨hmem, hcur, hb⟩, ?_⟩
      rw [hmoved.client]
      exact hside
    · rw [if_neg hcase] at hside
      obtain ⟨hti, hold, hclient⟩ := h.waiter side t hside
      exact ⟨hmoved.idle.symm ▸ hti, (hmoved.asleep t hti).mpr ⟨hold.1, hold.2.1, hb⟩,
        by rw [hmoved.pc t hcase]; exact hclient⟩
  · rw [hmoved.idle] at hti
    obtain ⟨hall, hrun, hb⟩ := (hmoved.asleep t hti).mp ht
    have hnew := hasleep t hti hall hrun hb
    by_cases hcase : t = m.sched.runningThread
    · rw [if_pos hcase] at hnew
      rw [hcase, hmoved.client, hmoved.data, ← hcase]
      exact hnew
    · rw [if_neg hcase] at hnew
      obtain ⟨side, hsleep, hold⟩ := h.asleep t hti hnew.1
      exact ⟨side, by rw [hmoved.pc t hcase]; exact hsleep, by
        rw [hmoved.data]; exact hnew.2 side hold⟩

theorem running_not_blocked (h : IoInv m) :
    (m.sched.status m.sched.runningThread).isBlocked = false :=
  congrArg TaskStatus.isBlocked h.sync.sema.sched.current

theorem waiter_blocked (h : IoInv m) (side : Side) {t : Nat} (ht : m.data.q.waiter side = some t) :
    t ∈ m.sched.threadAllList ∧ (m.sched.status t).isBlocked = true :=
  ⟨(h.waiter side t ht).2.1.1, (h.waiter side t ht).2.1.2.2⟩

theorem waiter_ne_running (h : IoInv m) {side : Side} {t : Nat}
    (ht : m.data.q.waiter side = some t) : t ≠ m.sched.runningThread := by
  rintro rfl
  have hb := (h.waiter_blocked _ ht).2
  rw [h.running_not_blocked] at hb
  exact absurd hb (by decide)

theorem plain (h : IoInv m) {s' : Sched} {k k' : IoPc} {c : Option (SyncCall Unit)}
    (hpc : m.pc m.sched.runningThread = .run k)
    (hne : m.sched.runningThread ≠ m.sched.idleThread)
    (hmoved : ClientMoved s' m.data k' c m m') (hst : s'.status = m.sched.status)
    (hdepth : c.elim k.depth (·.after () k.depth) = k'.depth)
    (hflag : k' ≠ .out → s'.intrOf m.sched.runningThread = .off) : IoInv m' := by
  refine h.moved hpc hne hmoved h.valid h.fifo hdepth hflag (fun side t ht => ?_)
    fun t _ hall hrun hb => ?_
  · rw [hst, if_neg (h.waiter_ne_running ht)]
    exact ⟨(h.waiter_blocked _ ht).2, ht⟩
  · rw [hst] at hb
    have hcase : t ≠ m.sched.runningThread := by
      rintro rfl
      rw [h.running_not_blocked] at hb
      exact absurd hb (by decide)
    rw [if_neg hcase]
    exact ⟨⟨hall, hrun, hb⟩, fun _ => id⟩

section Wake

variable {s' : Sched} {q' : Ioqueue} {side : Side}

theorem woken_waiter (h : IoInv m) (hs : Woken (m.data.q.waiter side) m.sched s')
    (hq : ∀ side', q'.waiter side' = if side' = side then none else m.data.q.waiter side')
    {side' : Side} {t : Nat} (ht : q'.waiter side' = some t) :
    (s'.status t).isBlocked = true ∧ m.data.q.waiter side' = some t := by
  rw [hq] at ht
  split at ht
  · exact nomatch ht
  · next hside =>
    have hother : m.data.q.waiter side ≠ some t := by
      intro hsame
      have h1 := (h.waiter side' t ht).2.2
      rw [(h.waiter side t hsame).2.2] at h1
      exact hside (Option.some.inj h1).symm
    rw [hs.status, if_neg hother]
    exact ⟨(h.waiter_blocked _ ht).2, ht⟩

theorem woken_asleep (hs : Woken (m.data.q.waiter side) m.sched s')
    (hq : ∀ side', q'.waiter side' = if side' = side then none else m.data.q.waiter side')
    {t : Nat} (hall : t ∈ m.sched.threadAllList) (hrun : (m.pc t).isRun)
    (hb : (s'.status t).isBlocked = true) :
    m.Asleep t ∧ ∀ side', m.data.q.waiter side' = some t → q'.waiter side' = some t := by
  rw [hs.status] at hb
  split at hb
  · exact absurd hb (by decide)
  · next hw =>
    refine ⟨⟨hall, hrun, hb⟩, fun side' ht => ?_⟩
    rw [hq, if_neg]
    · exact ht
    · rintro rfl
      exact hw ht

theorem woken_quiet (h : IoInv m) (hs : Woken (m.data.q.waiter side) m.sched s') :
    Quiet m s' := by
  refine ⟨hs.inv, hs.idle, hs.all, fun t ht _ => ?_⟩
  rw [hs.status, if_neg]
  intro hw
  exact ht (h.waiter side t hw).2.1.2.1

theorem woke (h : IoInv m) {d : IoState} {k : IoPc} (hpc : m.pc m.sched.runningThread = .run k)
    (hne : m.sched.runningThread ≠ m.sched.idleThread)
    (hmoved : ClientMoved s' d .out none m m') (hs : Woken (m.data.q.waiter side) m.sched s')
    (hq : ∀ side', d.q.waiter side' = if side' = side then none else m.data.q.waiter side')
    (hvalid : d.q.Valid buffSize) (hfifo : d.put = d.got ++ d.q.contents buffSize)
    (hdepth : k.depth = 0) : IoInv m' := by
  refine h.moved hpc hne hmoved hvalid hfifo hdepth (fun hout => absurd rfl hout)
    (fun side' t ht => ?_) fun t _ hall hrun hb => ?_
  · obtain ⟨hb, hold⟩ := h.woken_waiter hs hq ht
    rw [if_neg (h.waiter_ne_running hold)]
    exact ⟨hb, hold⟩
  · have hold := woken_asleep hs hq hall hrun hb
    have hcase : t ≠ m.sched.runningThread := by
      rintro rfl
      have hblocked := hold.1.2.2
      rw [h.running_not_blocked] at hblocked
      exact absurd hblocked (by decide)
    rw [if_neg hcase]
    exact hold

theorem irq (h : IoInv m) (side : Side) {d : IoState}
    (hs : Woken (m.data.q.waiter side) m.sched s')
    (hq : ∀ side', d.q.waiter side' = if side' = side then none else m.data.q.waiter side')
    (hvalid : d.q.Valid buffSize) (hfifo : d.put = d.got ++ d.q.contents buffSize) :
    IoInv { m with sched := s', data := d } := by
  have hintr : ∀ t, s'.intrOf t = m.sched.intrOf t := fun t => by
    rw [Sched.intrOf, Sched.intrOf, hs.running, hs.intr, hs.resume]
  refine ⟨h.sync.quiet (h.woken_quiet hs) d, hvalid, hfifo, ?_, fun t ht => ?_, fun t ht => ?_,
    fun t ht hout => ?_, fun side' t ht => ?_, fun t hti ht => ?_⟩
  · show (m.pc s'.idleThread).client = .out
    rw [hs.idle]
    exact h.idle
  · exact h.depth t (hs.all ▸ ht)
  · exact h.unborn t (hs.all ▸ ht)
  · have hflag : Machine.flag { m with sched := s', data := d } t = m.flag t :=
      flag_congr rfl (hintr t)
    exact hflag.trans (h.flag t (hs.all ▸ ht) hout)
  · obtain ⟨hb, hold⟩ := h.woken_waiter hs hq ht
    obtain ⟨hti, hasleep, hclient⟩ := h.waiter side' t hold
    exact ⟨hs.idle.symm ▸ hti, ⟨hs.all.symm ▸ hasleep.1, hasleep.2.1, hb⟩, hclient⟩
  · obtain ⟨hold, hkeep⟩ := woken_asleep hs hq (hs.all ▸ ht.1) ht.2.1 ht.2.2
    obtain ⟨side', hsleep, hw⟩ := h.asleep t (hs.idle ▸ hti) hold
    exact ⟨side', hsleep, hkeep side' hw⟩

end Wake

theorem holder_unique (h : IoInv m) {t u : Nat} (ht : (m.pc t).isRun) (hu : (m.pc u).isRun)
    (hdt : m.depthOf t () ≠ 0) (hdu : m.depthOf u () ≠ 0) : t = u := by
  have hheld : ∀ v, (m.pc v).isRun → m.depthOf v () ≠ 0 → LockHeld m () v := by
    intro v hv hdv
    refine (h.sync.lock ()).held ?_
    cases hp : m.pc v with
    | run k => rw [Machine.depthOf, hp] at hdv; exact hdv
    | down r old k => rw [hp] at hv; exact absurd hv id
    | lock i p k => rw [hp] at hv; exact absurd hv id
  by_contra hne
  exact (hheld t ht hdt).inside.not_outside ((hheld u hu hdu).outside t hne)

section Running

variable {k : IoPc}

theorem running_depth (h : IoInv m) (hpc : m.pc m.sched.runningThread = .run k) :
    m.depthOf m.sched.runningThread () = k.depth ∧ m.depth m.sched.runningThread () = k.depth := by
  have hd := h.depth _ h.sync.sema.sched.running_mem
  rw [hpc] at hd
  refine ⟨hd, ?_⟩
  rw [Machine.depthOf, hpc] at hd
  exact hd

theorem running_off (h : IoInv m) (hpc : m.pc m.sched.runningThread = .run k) (hk : k ≠ .out) :
    m.sched.intrStatus = .off := by
  have hflag := h.flag _ h.sync.sema.sched.running_mem (by rw [hpc]; exact hk)
  rw [Machine.flag, hpc] at hflag
  exact (if_pos rfl).symm.trans hflag

/-- Before `ioq_wait` the slot is free, because whoever sleeps in `ioq_wait` has the lock. -/
theorem waiter_none (h : IoInv m) (hpc : m.pc m.sched.runningThread = .run k) {side : Side}
    (hk : k.waiting = some side) : m.data.q.waiter side = none := by
  refine Option.eq_none_iff_forall_ne_some.mpr fun t ht => ?_
  obtain ⟨-, hasleep, hsleep⟩ := h.waiter side t ht
  have hdepth : k.depth ≠ 0 ∧ ∀ k' : IoPc, k'.sleeping = some side → k'.depth ≠ 0 := by
    refine ⟨?_, fun k' hk' => ?_⟩
    · cases k <;> first | exact Nat.one_ne_zero | exact nomatch hk
    · cases k' <;> first | exact Nat.one_ne_zero | exact nomatch hk'
  refine h.waiter_ne_running ht (h.holder_unique hasleep.2.1 (by rw [hpc]; trivial) ?_ ?_)
  · rw [h.depth t hasleep.1]
    exact hdepth.2 _ hsleep
  · rw [(h.running_depth hpc).1]
    exact hdepth.1

end Running

end IoInv

/-- The step is the running thread's call of `ioq_wait` for `side`. -/
def Waits (side : Side) (m : Machine Unit IoPc IoState) (a : MachAct IoPc IoAct UInt8) : Prop :=
  a = .client .go ∧ ∃ k, m.pc m.sched.runningThread = .run k ∧ k.waiting = some side

/-- The step is the running thread's call of `lock_acquire`, because the queue is empty or full. -/
def Acquires (side : Side) (m : Machine Unit IoPc IoState) (a : MachAct IoPc IoAct UInt8) : Prop :=
  a = .client .go ∧
    ∃ k, m.pc m.sched.runningThread = .run k ∧ k.testing = some side ∧ m.data.q.Stuck side

/-- Thread `t` is inside `lock_acquire`, on its way to `ioq_wait` for `side`. -/
def InAcquire (side : Side) (m : Machine Unit IoPc IoState) (t : Nat) : Prop :=
  ¬ (m.pc t).isRun ∧ (m.pc t).client.waiting = some side

/-- What a step does to the queue: nothing, fill a slot by `ioq_wait`, take a byte, or store one. -/
inductive QueueMove (m : Machine Unit IoPc IoState) (a : MachAct IoPc IoAct UInt8) :
    Ioqueue → Prop
  | same : (∀ side, ¬ Waits side m a) → QueueMove m a m.data.q
  | wait (side : Side) : Waits side m a →
      QueueMove m a (m.data.q.setWaiter side (some m.sched.runningThread))
  | take : (∀ side, ¬ Waits side m a) → ¬ m.data.q.Stuck .consumer → QueueMove m a m.data.q.taken
  | store (byte : UInt8) : (∀ side, ¬ Waits side m a) → ¬ m.data.q.Stuck .producer →
      QueueMove m a (m.data.q.stored byte)

/-- What a step does to the queue and to the threads inside `lock_acquire`. -/
structure IoMoved (m : Machine Unit IoPc IoState) (a : MachAct IoPc IoAct UInt8)
    (m' : Machine Unit IoPc IoState) : Prop where
  inv : IoInv m'
  queue : QueueMove m a m'.data.q
  acquire : ∀ side t, InAcquire side m' t → InAcquire side m t ∨ Acquires side m a

section Steps

variable {m : Machine Unit IoPc IoState}

/-- A step of the running thread that is not a call of `lock_acquire` brings nobody into it. -/
theorem acquire_of_moved {m' : Machine Unit IoPc IoState} {a : MachAct IoPc IoAct UInt8}
    {s' : Sched} {d : IoState} {k' : IoPc} {c : Option (SyncCall Unit)}
    (hmoved : ClientMoved s' d k' c m m')
    (hk : c = none ∨ k'.waiting = none ∨ ∀ side, k'.waiting = some side → Acquires side m a) :
    ∀ side t, InAcquire side m' t → InAcquire side m t ∨ Acquires side m a := by
  intro side t ht
  by_cases hcur : t = m.sched.runningThread
  · subst hcur
    have hclient := ht.2
    rw [hmoved.client] at hclient
    rcases hk with hnone | hnone | hk
    · exact absurd (hmoved.returned hnone) ht.1
    · exact nomatch hnone.symm.trans hclient
    · exact .inr (hk side hclient)
  · rw [InAcquire, hmoved.pc t hcur] at ht
    exact .inl ht

theorem not_waits {k : IoPc} (hpc : m.pc m.sched.runningThread = .run k) (hk : k.waiting = none)
    (a : MachAct IoPc IoAct UInt8) (side : Side) : ¬ Waits side m a := by
  rintro ⟨-, k', hpc', hk'⟩
  obtain rfl : k' = k := Pc.run.inj (hpc'.symm.trans hpc)
  exact nomatch hk.symm.trans hk'

/-- A step of the running thread outside a call of the two functions, or its entry into one. -/
theorem plain_step (h : IoInv m) {a : IoAct} {s' : Sched} {k' : IoPc}
    (hne : m.sched.runningThread ≠ m.sched.idleThread)
    (hpc : m.pc m.sched.runningThread = .run .out) (ha : a ≠ .go)
    (hexec : ioClient.exec a m.sched.runningThread .out m.sched m.data =
      .ok (s', m.data, k', none))
    (hq : Quiet m s') (hst : s'.status = m.sched.status)
    (hintr : ∀ t, t ≠ m.sched.runningThread → s'.intrOf t = m.sched.intrOf t)
    (hdepth : k'.depth = 0) (hflag : k' ≠ .out → s'.intrOf m.sched.runningThread = .off) :
    ∃ m', ioClient.step (.client a) m = .ok m' ∧ IoMoved m (.client a) m' := by
  obtain ⟨m', heq, hmoved⟩ := ioClient.step_client h.sync hne hpc hexec hq hintr nofun
  refine ⟨m', heq, h.plain hpc hne hmoved hst hdepth.symm hflag, ?_,
    acquire_of_moved hmoved (.inl rfl)⟩
  rw [hmoved.data]
  refine .same fun side hw => ha ?_
  simpa using hw.1

/-- A step of the running thread that calls `lock_acquire` or `lock_release` and leaves the queue
alone. -/
theorem call_step (h : IoInv m) {k : IoPc} {c : SyncCall Unit}
    (hne : m.sched.runningThread ≠ m.sched.idleThread)
    (hpc : m.pc m.sched.runningThread = .run k) (hout : k ≠ .out) (hwait : k.waiting = none)
    (hexec : ioGo k m.sched m.data = .ok (m.sched, m.data, k.next, some c))
    (hallowed : c.Allowed (m.moved m.sched m.data k.next))
    (hdepth : c.after () k.depth = k.next.depth)
    (hacq : k.next.waiting = none ∨
      ∀ side, k.next.waiting = some side → Acquires side m (.client .go)) :
    ∃ m', ioClient.step (.client .go) m = .ok m' ∧ IoMoved m (.client .go) m' := by
  obtain ⟨m', heq, hmoved⟩ := ioClient.step_client h.sync (a := .go) hne hpc hexec
    ⟨h.sync.sema.sched, rfl, rfl, fun _ _ _ => rfl⟩ (fun _ _ => rfl)
    (fun call hc => ⟨rfl, Option.some.inj hc ▸ hallowed⟩)
  have hoff : m.sched.intrOf m.sched.runningThread = .off :=
    (if_pos rfl).trans (h.running_off hpc hout)
  refine ⟨m', heq, h.plain hpc hne hmoved rfl hdepth fun _ => hoff, ?_,
    acquire_of_moved hmoved (.inr hacq)⟩
  rw [hmoved.data]
  exact .same (not_waits hpc hwait _)

/-- The test of the loop finds the queue empty, for a consumer, or full, for a producer. -/
theorem stuck_step (h : IoInv m) {k : IoPc} {side : Side}
    (hne : m.sched.runningThread ≠ m.sched.idleThread)
    (hpc : m.pc m.sched.runningThread = .run k) (hk : k.testing = some side)
    (hst : m.data.q.Stuck side) :
    ∃ m', ioClient.step (.client .go) m = .ok m' ∧ IoMoved m (.client .go) m' := by
  have hfacts : k ≠ .out ∧ k.waiting = none ∧ k.depth = 0 ∧ k.next.depth = 1 ∧
      k.next.waiting = some side := by
    cases k with
    | getTest => exact ⟨nofun, rfl, rfl, rfl, hk⟩
    | putTest byte => exact ⟨nofun, rfl, rfl, rfl, hk⟩
    | _ => exact nomatch hk
  obtain ⟨hout, hwait, hd, hd', hnext⟩ := hfacts
  refine call_step h hne hpc hout hwait
    (ioGo_stuck hk (h.running_off hpc hout) hst) ?_ ?_ (.inr fun side' hs => ?_)
  · show m.depth m.sched.runningThread () + 1 < 2 ^ 32
    rw [(h.running_depth hpc).2, hd]
    decide
  · rw [hd, hd']
    rfl
  · obtain rfl : side = side' := Option.some.inj (hnext.symm.trans hs)
    exact ⟨rfl, k, hpc, hk, hst⟩

theorem release_step (h : IoInv m) {k : IoPc} {side : Side}
    (hne : m.sched.runningThread ≠ m.sched.idleThread)
    (hpc : m.pc m.sched.runningThread = .run k) (hk : k.sleeping = some side) :
    ∃ m', ioClient.step (.client .go) m = .ok m' ∧ IoMoved m (.client .go) m' := by
  have hfacts : k ≠ .out ∧ k.waiting = none ∧ k.depth = 1 ∧ k.next.depth = 0 ∧
      k.next.waiting = none := by
    cases k with
    | getRelease => exact ⟨nofun, rfl, rfl, rfl, rfl⟩
    | putRelease byte => exact ⟨nofun, rfl, rfl, rfl, rfl⟩
    | _ => exact nomatch hk
  obtain ⟨hout, hwait, hd, hd', hnext⟩ := hfacts
  refine call_step h hne hpc hout hwait (ioGo_sleeping hk) ?_ ?_ (.inl hnext)
  · show 0 < m.depth m.sched.runningThread ()
    rw [(h.running_depth hpc).2, hd]
    exact Nat.one_pos
  · rw [hd, hd']
    rfl

theorem wait_step (h : IoInv m) {k : IoPc} {side : Side}
    (hne : m.sched.runningThread ≠ m.sched.idleThread)
    (hpc : m.pc m.sched.runningThread = .run k) (hk : k.waiting = some side) :
    ∃ m', ioClient.step (.client .go) m = .ok m' ∧ IoMoved m (.client .go) m' := by
  have hfacts : k ≠ .out ∧ k.depth = k.next.depth ∧ k.next.sleeping = some side := by
    cases k with
    | getWait => exact ⟨nofun, rfl, hk⟩
    | putWait byte => exact ⟨nofun, rfl, hk⟩
    | _ => exact nomatch hk
  obtain ⟨hout, hdepth, hnext⟩ := hfacts
  obtain ⟨s', hwait, hs'⟩ := ioqWait_ok (q := m.data.q) h.sync.sema.sched (h.waiter_none hpc hk)
  have hexec : ioClient.exec .go m.sched.runningThread k m.sched m.data = .ok (s',
      { m.data with q := m.data.q.setWaiter side (some m.sched.runningThread) }, k.next, none) := by
    show ioGo k m.sched m.data = _
    rw [ioGo_waiting hk, hwait, ok_bind]
  have hcur : (m.pc m.sched.runningThread).isRun := by rw [hpc]; trivial
  have hq : Quiet m s' := ⟨hs'.inv, hs'.idle, hs'.all, fun t ht =>
    hs'.blocked t (h.sync.sema.ne_idle_of_not_isRun ht) fun heq => ht (heq ▸ hcur)⟩
  obtain ⟨m', heq, hmoved⟩ := ioClient.step_client h.sync hne hpc hexec hq
    (fun t _ => hs'.intrOf t) nofun
  have hwaiter : ∀ side', (m.data.q.setWaiter side (some m.sched.runningThread)).waiter side' =
      if side' = side then some m.sched.runningThread else m.data.q.waiter side' := fun side' => by
    cases side <;> cases side' <;> rfl
  have hring : (m.data.q.setWaiter side (some m.sched.runningThread)).toRing = m.data.q.toRing := by
    cases side <;> rfl
  refine ⟨m', heq, h.moved hpc hne hmoved ?_ ?_ hdepth (fun _ => ?_) (fun side' t ht => ?_)
    fun t hti hall hrun hb => ?_, ?_, acquire_of_moved hmoved (.inl rfl)⟩
  · rw [hring]
    exact h.valid
  · rw [hring]
    exact h.fifo
  · rw [hs'.intrOf]
    exact (if_pos rfl).trans (h.running_off hpc hout)
  · rw [hwaiter] at ht
    split at ht
    · next hside =>
      obtain rfl := Option.some.inj ht
      rw [hs'.self hne, if_pos rfl, hside]
      exact ⟨rfl, hnext⟩
    · have hb := (h.waiter_blocked _ ht).2
      rw [hs'.blocked t (h.waiter side' t ht).1 (h.waiter_ne_running ht) (.inl hb),
        if_neg (h.waiter_ne_running ht)]
      exact ⟨hb, ht⟩
  · split
    · next hcase =>
      refine ⟨side, hnext, ?_⟩
      rw [hwaiter, if_pos rfl, hcase]
    · next hcase =>
      have hold := hs'.blocked t hti hcase (.inr hb)
      have hasleep : m.Asleep t := ⟨hall, hrun, hold ▸ hb⟩
      refine ⟨hasleep, fun side' ht => ?_⟩
      rw [hwaiter, if_neg]
      · exact ht
      · rintro rfl
        rw [h.waiter_none hpc hk] at ht
        exact nomatch ht
  · rw [hmoved.data]
    exact .wait side ⟨rfl, k, hpc, hk⟩

theorem wake_step (h : IoInv m) {k : IoPc} (side : Side) {s' : Sched} {d : IoState}
    (hne : m.sched.runningThread ≠ m.sched.idleThread)
    (hpc : m.pc m.sched.runningThread = .run k) (hdepth : k.depth = 0)
    (hs : Woken (m.data.q.waiter side) m.sched s')
    (hexec : ioGo k m.sched m.data = .ok (s', d, .out, none))
    (hq : ∀ side', d.q.waiter side' = if side' = side then none else m.data.q.waiter side')
    (hvalid : d.q.Valid buffSize) (hfifo : d.put = d.got ++ d.q.contents buffSize)
    (hmove : QueueMove m (.client .go) d.q) :
    ∃ m', ioClient.step (.client .go) m = .ok m' ∧ IoMoved m (.client .go) m' := by
  obtain ⟨m', heq, hmoved⟩ := ioClient.step_client h.sync (a := .go) hne hpc hexec
    (h.woken_quiet hs) (fun t _ => by rw [Sched.intrOf, Sched.intrOf, hs.running, hs.intr,
      hs.resume]) nofun
  refine ⟨m', heq, h.woke hpc hne hmoved hs hq hvalid hfifo hdepth, ?_,
    acquire_of_moved hmoved (.inl rfl)⟩
  rw [hmoved.data]
  exact hmove

theorem take_step (h : IoInv m) (hne : m.sched.runningThread ≠ m.sched.idleThread)
    (hpc : m.pc m.sched.runningThread = .run .getTest) (hst : ¬ m.data.q.Stuck .consumer) :
    ∃ m', ioClient.step (.client .go) m = .ok m' ∧ IoMoved m (.client .go) m' := by
  obtain ⟨s', htake, hs⟩ := ioqTake_ok h.sync.sema.sched fun t ht =>
    h.waiter_blocked .producer ht
  obtain ⟨hvalid, hcontents⟩ := taken_contents h.valid hst
  refine wake_step h .producer hne hpc rfl hs (d := { m.data with
    q := m.data.q.taken, got := m.data.got ++ [m.data.q.buf m.data.q.tail] }) ?_ (fun side' => ?_)
    hvalid ?_ (.take (not_waits hpc rfl _) hst)
  · rw [ioGo_getTest (h.running_off hpc nofun) hst, htake, ok_bind]
  · cases side' <;> rfl
  · show m.data.put = (m.data.got ++ [_]) ++ _
    rw [h.fifo, hcontents, List.append_assoc]
    rfl

theorem store_step (h : IoInv m) {byte : UInt8}
    (hne : m.sched.runningThread ≠ m.sched.idleThread)
    (hpc : m.pc m.sched.runningThread = .run (.putTest byte)) (hst : ¬ m.data.q.Stuck .producer) :
    ∃ m', ioClient.step (.client .go) m = .ok m' ∧ IoMoved m (.client .go) m' := by
  obtain ⟨s', hstore, hs⟩ := ioqStore_ok byte h.sync.sema.sched fun t ht =>
    h.waiter_blocked .consumer ht
  obtain ⟨hvalid, hcontents⟩ := stored_contents h.valid hst byte
  refine wake_step h .consumer hne hpc rfl hs (d := { m.data with
    q := m.data.q.stored byte, put := m.data.put ++ [byte] }) ?_ (fun side' => ?_)
    hvalid ?_ (.store byte (not_waits hpc rfl _) hst)
  · rw [ioGo_putTest byte (h.running_off hpc nofun) hst, hstore, ok_bind]
  · cases side' <;> rfl
  · show m.data.put ++ [byte] = m.data.got ++ _
    rw [hcontents, h.fifo, List.append_assoc]

theorem irq_step (h : IoInv m) (byte : UInt8) (hon : m.sched.intrStatus = .on) :
    ∃ m', ioClient.step (.irq byte) m = .ok m' ∧ IoMoved m (.irq byte) m' := by
  have hback : intrSetStatus .on (intrDisable m.sched) = m.sched := by
    rw [← hon]
    rfl
  have hwaits : ∀ side, ¬ Waits side m (.irq byte) := fun side hw => nomatch hw.1
  have hacq : ∀ (m' : Machine Unit IoPc IoState), m'.pc = m.pc → ∀ side t,
      InAcquire side m' t → InAcquire side m t ∨ Acquires side m (.irq byte) := by
    intro m' hpc side t ht
    rw [InAcquire, hpc] at ht
    exact .inl ht
  have hsame : ioClient.handler byte (intrDisable m.sched) m.data =
      .ok (intrDisable m.sched, m.data) →
      ∃ m', ioClient.step (.irq byte) m = .ok m' ∧ IoMoved m (.irq byte) m' := by
    intro hhandler
    refine ⟨m, ?_, h, .same hwaits, hacq m rfl⟩
    simp only [Client.step, hhandler, ok_bind, hback]
    rfl
  have hoff : (intrDisable m.sched).intrStatus = .off := rfl
  by_cases hbyte : byte = 0
  · refine hsame ?_
    show intrKeyboardHandler byte _ _ = _
    rw [intrKeyboardHandler, if_pos hbyte]
    rfl
  by_cases hst : m.data.q.Stuck .producer
  · refine hsame ?_
    show intrKeyboardHandler byte _ _ = _
    simp only [intrKeyboardHandler, if_neg hbyte, ioqFull, assert_of (decide_eq_true hoff), ok_bind,
      show nextPos m.data.q.head = m.data.q.tail from hst, decide_true]
    rfl
  obtain ⟨s₁, hstore, hs₁⟩ := ioqStore_ok byte (h.sync.sema.sched.intr .off) fun t ht =>
    h.waiter_blocked .consumer ht
  have hs : Woken m.data.q.consumer m.sched (intrSetStatus .on s₁) :=
    ⟨hs₁.inv.intr .on, hs₁.all, hs₁.idle, hs₁.running, hon.symm, hs₁.resume, hs₁.status⟩
  obtain ⟨hvalid, hcontents⟩ := stored_contents h.valid hst byte
  refine ⟨{ m with sched := intrSetStatus .on s₁, data := { m.data with
    q := m.data.q.stored byte, put := m.data.put ++ [byte] } }, ?_,
    h.irq .consumer hs (fun side' => ?_) hvalid ?_, .store byte hwaits hst, hacq _ rfl⟩
  · have hhandler : ioClient.handler byte (intrDisable m.sched) m.data = .ok (s₁, { m.data with
        q := m.data.q.stored byte, put := m.data.put ++ [byte] }) := by
      show intrKeyboardHandler byte _ _ = _
      simp only [intrKeyboardHandler, if_neg hbyte, ioqFull, assert_of (decide_eq_true hoff),
        ok_bind, show ¬ nextPos m.data.q.head = m.data.q.tail from hst, decide_false]
      rw [show ioqStore byte (intrDisable m.sched) m.data.q = _ from hstore]
      rfl
    simp only [Client.step, hhandler, ok_bind]
    rfl
  · cases side' <;> rfl
  · show m.data.put ++ [byte] = m.data.got ++ _
    rw [hcontents, h.fifo, List.append_assoc]

theorem IoInv.step (h : IoInv m) {a : MachAct IoPc IoAct UInt8} (hen : ioClient.Enabled m a) :
    ∃ m', ioClient.step a m = .ok m' ∧ IoMoved m a m' := by
  rcases a.kernel_or with hk | ⟨b, rfl⟩ | ⟨a, rfl⟩
  · obtain ⟨m', heq, hinv, hframe⟩ := ioClient.step_kernel h.sync hk hen
    refine ⟨m', heq, h.frame hinv hframe, ?_, fun side t ht => .inl ?_⟩
    · rw [hframe.data]
      refine .same fun side hw => ?_
      rw [hw.1] at hk
      exact nomatch hk
    · have hin := hframe.inside t ht.1
      have hall : t ∈ m.sched.threadAllList := by
        by_contra hnew
        exact hin (h.sync.sema.unborn t hnew)
      exact ⟨hin, hframe.client t hall ▸ ht.2⟩
  · exact irq_step h b hen
  · obtain ⟨hne, k, hpc, hguard⟩ := hen
    cases a with
    | intr status =>
      obtain rfl : k = .out := hguard
      exact plain_step h hne hpc nofun rfl ⟨h.sync.sema.sched.intr status, rfl, rfl,
        fun _ _ _ => rfl⟩ rfl (fun t ht => (if_neg ht).trans (if_neg ht).symm) rfl
        fun hout => absurd rfl hout
    | ioqGetchar =>
      obtain ⟨rfl, hoff⟩ : k = .out ∧ m.sched.intrStatus = .off := hguard
      have hexec : ioClient.exec (.ioqGetchar) m.sched.runningThread .out m.sched m.data =
          .ok (m.sched, m.data, .getTest, none) := by
        simp only [ioClient, assert_of (decide_eq_true hoff), ok_bind]
        rfl
      exact plain_step h hne hpc nofun hexec ⟨h.sync.sema.sched, rfl, rfl, fun _ _ _ => rfl⟩ rfl
        (fun _ _ => rfl) rfl fun _ => (if_pos rfl).trans hoff
    | ioqPutchar byte =>
      obtain ⟨rfl, hoff⟩ : k = .out ∧ m.sched.intrStatus = .off := hguard
      have hexec : ioClient.exec (.ioqPutchar byte) m.sched.runningThread .out m.sched m.data =
          .ok (m.sched, m.data, .putTest byte, none) := by
        simp only [ioClient, assert_of (decide_eq_true hoff), ok_bind]
        rfl
      exact plain_step h hne hpc nofun hexec ⟨h.sync.sema.sched, rfl, rfl, fun _ _ _ => rfl⟩ rfl
        (fun _ _ => rfl) rfl fun _ => (if_pos rfl).trans hoff
    | go =>
      cases k with
      | out => exact absurd rfl hguard
      | getTest =>
        by_cases hst : m.data.q.Stuck .consumer
        · exact stuck_step h hne hpc rfl hst
        · exact take_step h hne hpc hst
      | getWait => exact wait_step h hne hpc rfl
      | getRelease => exact release_step h hne hpc rfl
      | putTest byte =>
        by_cases hst : m.data.q.Stuck .producer
        · exact stuck_step h hne hpc rfl hst
        · exact store_step h hne hpc hst
      | putWait byte => exact wait_step h hne hpc rfl
      | putRelease byte => exact release_step h hne hpc rfl

end Steps

end OriginOS
