import OriginOS.Device.IoqueueInvariant
import OriginOS.Thread.SyncRuns

/-! The runs of any number of producers and consumers of one byte queue, with the keyboard. The
queue is a FIFO in every run. Because the loops test the queue before `lock_acquire`, which may
sleep, and not again before `ioq_wait`, a thread may sleep on a queue that it need not wait for,
and a producer and a consumer may wait for each other. -/

namespace OriginOS

open Lib Sched

def ioSystem : System (Machine Unit IoPc IoState) (MachAct IoPc IoAct UInt8) Panic :=
  ioClient.system fun d => (∃ q, d.q = ioqueueInit q) ∧ d.put = [] ∧ d.got = []

theorem IoInv.init {m : Machine Unit IoPc IoState} (h : ioSystem.init m) : IoInv m := by
  obtain ⟨hfresh, ⟨q, hq⟩, hput, hgot⟩ := h
  have hout : ∀ t, (m.pc t).client = .out := by
    intro t
    obtain ⟨k, hk, hpc⟩ := hfresh.pc t
    rw [hpc]
    exact hk
  refine ⟨hfresh.syncInv, ?_, ?_, hout _, fun t _ => ?_, fun t _ => hfresh.depthOf t (),
    fun t _ hne => absurd (hout t) hne, fun side t ht => ?_, fun t hti ht => ?_⟩
  · rw [hq]
    exact ⟨Int.le_refl 0, Int.natCast_pos.mpr (by decide : 0 < 64), Int.le_refl 0,
      Int.natCast_pos.mpr (by decide : 0 < 64)⟩
  · rw [hput, hgot, hq]
    rfl
  · rw [hfresh.depthOf, hout]
    rfl
  · rw [hq] at ht
    cases side <;> exact nomatch ht
  · have hb := ht.2.2
    rw [hfresh.booted.eq_running ht.1 hti, hfresh.booted.inv.current] at hb
    exact absurd hb (by decide)

theorem ioSystem_inv {m : Machine Unit IoPc IoState} (h : ioSystem.Reachable m) : IoInv m := by
  refine h.invariant (fun _ => IoInv.init) fun s a t hs hstep => ?_
  obtain ⟨t', heq, ht'⟩ := hs.step hstep.1
  exact hstep.eq_of_ok heq ▸ ht'.inv

/-- The bytes `buf[tail]`, `buf[tail+1 mod 64]` and so on, up to `head`. -/
def Ioqueue.bytes (q : Ioqueue) : List UInt8 :=
  (List.range ((q.head - q.tail) % 64).toNat).map fun i : Nat => q.buf ((q.tail + i) % 64)

theorem contents_eq_bytes {q : Ioqueue} (h : q.Valid buffSize) :
    q.contents buffSize = q.bytes := by
  have hhead := h.head_nonneg
  have hhead' := h.head_lt
  have htail := h.tail_nonneg
  have htail' := h.tail_lt
  unfold buffSize at hhead' htail'
  have hsize : q.size buffSize = ((q.head - q.tail) % 64).toNat := by
    unfold Ring.size buffSize
    split <;> omega
  unfold Ring.contents Ioqueue.bytes
  rw [hsize]
  apply List.map_congr_left
  intro i hi
  have hlt := List.mem_range.mp hi
  congr 1
  unfold Ring.slot buffSize
  split <;> omega

/-- The queue is a FIFO: what was put is what was taken, followed by what the buffer holds; the
positions stay in the buffer, one slot stays free, and no assertion fails. -/
theorem ioqueue_fifo (m : Machine Unit IoPc IoState) (h : ioSystem.Reachable m) :
    m.data.put = m.data.got ++ m.data.q.bytes ∧
    (0 ≤ m.data.q.head ∧ m.data.q.head < 64) ∧ (0 ≤ m.data.q.tail ∧ m.data.q.tail < 64) ∧
    m.data.q.bytes.length ≤ 63 ∧
    ∀ a, ioClient.Enabled m a → ∃ m', ioClient.step a m = .ok m' := by
  have hinv := ioSystem_inv h
  have hv := hinv.valid
  refine ⟨contents_eq_bytes hv ▸ hinv.fifo, ⟨hv.head_nonneg, hv.head_lt⟩,
    ⟨hv.tail_nonneg, hv.tail_lt⟩, ?_, fun a hen => ?_⟩
  · have hsize := Ring.size_lt hv
    rw [← contents_eq_bytes hv, Ring.length_contents]
    unfold buffSize at hsize ⊢
    omega
  · obtain ⟨m', heq, -⟩ := hinv.step hen
    exact ⟨m', heq⟩

instance (t : Nat) (k : IoPc) (s : Sched) (d : IoState) (a : IoAct) :
    Decidable (ioClient.guard t k s d a) :=
  match a with
  | .intr _ => inferInstanceAs (Decidable (k = .out))
  | .ioqGetchar | .ioqPutchar _ => inferInstanceAs (Decidable (k = .out ∧ s.intrStatus = .off))
  | .go => inferInstanceAs (Decidable (k ≠ .out))

instance : DecidablePred ioClient.start := fun k => inferInstanceAs (Decidable (k = .out))

instance (m : Machine Unit IoPc IoState) (a : MachAct IoPc IoAct UInt8) :
    Decidable (ioSystem.guard m a) :=
  ioClient.decidableEnabled m a

def ioBoot : Machine Unit IoPc IoState :=
  freshMachine .out ⟨ioqueueInit ⟨⟨fun _ => 0, 0, 0⟩, none, none⟩, [], []⟩

theorem ioBoot_init : ioSystem.init ioBoot :=
  ⟨freshMachine_fresh ioClient.start rfl _, ⟨_, rfl⟩, rfl, rfl⟩

/-- The main thread puts three bytes and takes one. -/
def threeActs : List (MachAct IoPc IoAct UInt8) :=
  [.client (.ioqPutchar 1), .client .go, .client (.ioqPutchar 2), .client .go,
    .client (.ioqPutchar 3), .client .go, .client .ioqGetchar, .client .go]

theorem ioqueue_fifo_three : ∃ m, ioSystem.Reachable m ∧
    m.data.put = [1, 2, 3] ∧ m.data.got = [1] ∧ m.data.put = m.data.got ++ m.data.q.bytes := by
  let m := (ioSystem.replay threeActs ioBoot).getD ioBoot
  have hm : ioSystem.Reachable m :=
    (System.Reachable.init ioBoot_init).replay_getD threeActs (by decide +kernel)
  exact ⟨m, hm, by decide +kernel, by decide +kernel, (ioqueue_fifo m hm).1⟩

/-! ### Sleeping on a queue that is neither empty nor full -/

/-- The slot of a side names a thread only while that side has to wait: a consumer on an empty
queue, a producer on a full one. -/
structure WaiterStuck (m : Machine Unit IoPc IoState) : Prop where
  consumer : m.data.q.consumer ≠ none → m.data.q.tail = m.data.q.head
  producer : m.data.q.producer ≠ none → nextPos m.data.q.head = m.data.q.tail

theorem waiterStuck_iff {m : Machine Unit IoPc IoState} :
    WaiterStuck m ↔ ∀ side, m.data.q.waiter side ≠ none → m.data.q.Stuck side := by
  refine ⟨fun h side => ?_, fun h => ⟨h .consumer, h .producer⟩⟩
  cases side
  · exact h.producer
  · exact h.consumer

/-- The step is not a call of `ioq_wait` on a queue that the caller need not wait for. -/
def WaitsFit (m : Machine Unit IoPc IoState) (a : MachAct IoPc IoAct UInt8) : Prop :=
  ∀ side, Waits side m a → m.data.q.Stuck side

theorem stuck_setWaiter (q : Ioqueue) (side side' : Side) (t : Option Nat) :
    (q.setWaiter side t).Stuck side' ↔ q.Stuck side' := by
  cases side <;> cases side' <;> exact Iff.rfl

theorem waiter_setWaiter (q : Ioqueue) (side side' : Side) (t : Option Nat) :
    (q.setWaiter side t).waiter side' = if side' = side then t else q.waiter side' := by
  cases side <;> cases side' <;> rfl

theorem waiterStuck_step {m m' : Machine Unit IoPc IoState} {a : MachAct IoPc IoAct UInt8}
    (h : WaiterStuck m) (hfit : WaitsFit m a) (hmoved : IoMoved m a m') : WaiterStuck m' := by
  rw [waiterStuck_iff] at h ⊢
  intro side
  generalize hq : m'.data.q = q
  have hmove := hq ▸ hmoved.queue
  cases hmove with
  | same => exact h side
  | wait side' hw =>
    rw [waiter_setWaiter, stuck_setWaiter]
    split
    · next heq => exact fun _ => heq ▸ hfit side' hw
    · exact h side
  | take _ hne =>
    -- nobody waits for a byte here, and the waiting producer has been woken
    cases side with
    | producer => exact fun hw => absurd rfl hw
    | consumer => exact fun hw => absurd (h .consumer hw) hne
  | store byte _ hne =>
    cases side with
    | producer => exact fun hw => absurd (h .producer hw) hne
    | consumer => exact fun hw => absurd rfl hw

/-- In a run, the slots name waiting threads only while these have to wait exactly when no thread
calls `ioq_wait` on a queue that it need not wait for. -/
theorem waiter_stuck_iff (tr : List (Machine Unit IoPc IoState × MachAct IoPc IoAct UInt8))
    (m : Machine Unit IoPc IoState) (run : ioSystem.Run tr m) :
    (∀ p ∈ tr, WaitsFit p.1 p.2) ↔ ∀ u ∈ System.states tr m, WaiterStuck u := by
  constructor
  · intro hfit u hu
    obtain ⟨tr', run', hsub⟩ := run.of_mem_states hu
    have hinv : IoInv u ∧ WaiterStuck u := by
      refine run'.invariant_of (C := WaitsFit) (I := fun m => IoInv m ∧ WaiterStuck m) ?_ ?_
        fun p hp => hfit p (hsub p hp)
      · intro s hs
        obtain ⟨-, ⟨q, hq⟩, -⟩ := id hs
        exact ⟨IoInv.init hs, by rw [hq]; exact absurd rfl, by rw [hq]; exact absurd rfl⟩
      · intro s a t hs hc hstep
        obtain ⟨t', heq, ht'⟩ := hs.1.step hstep.1
        exact hstep.eq_of_ok heq ▸ ⟨ht'.inv, waiterStuck_step hs.2 hc ht'⟩
    exact hinv.2
  · intro hall p hp side hw
    obtain ⟨t, ht, hstep, hreach⟩ := run.step_of_mem hp
    obtain ⟨t', heq, ht'⟩ := (ioSystem_inv hreach).step hstep.1
    obtain rfl := hstep.eq_of_ok heq
    have hstuck := waiterStuck_iff.mp (hall t ht)
    generalize hq : t.data.q = q at hstuck
    have hmove := hq ▸ ht'.queue
    cases hmove with
    | same hno => exact absurd hw (hno side)
    | wait side' hw' =>
      obtain rfl : side = side' := by
        obtain ⟨-, k, hk, hs⟩ := hw
        obtain ⟨-, k', hk', hs'⟩ := hw'
        obtain rfl : k = k' := Pc.run.inj (hk.symm.trans hk')
        exact Option.some.inj (hs.symm.trans hs')
      refine (stuck_setWaiter _ side side _).mp (hstuck side ?_)
      rw [waiter_setWaiter, if_pos rfl]
      exact Option.some_ne_none _
    | take hno => exact absurd hw (hno side)
    | store byte hno => exact absurd hw (hno side)

instance (side : Side) (m : Machine Unit IoPc IoState) (a : MachAct IoPc IoAct UInt8) :
    Decidable (Waits side m a) :=
  match hp : m.pc m.sched.runningThread with
  | .run k => decidable_of_iff (a = .client .go ∧ k.waiting = some side) (by simp [Waits, hp])
  | .down .. => .isFalse (by simp [Waits, hp])
  | .lock .. => .isFalse (by simp [Waits, hp])

instance {P : Side → Prop} [DecidablePred P] : Decidable (∀ side, P side) :=
  decidable_of_iff (P .producer ∧ P .consumer)
    ⟨fun h side => by cases side <;> [exact h.1; exact h.2], fun h => ⟨h _, h _⟩⟩

instance (m : Machine Unit IoPc IoState) (a : MachAct IoPc IoAct UInt8) :
    Decidable (WaitsFit m a) :=
  inferInstanceAs (Decidable (∀ side, Waits side m a → m.data.q.Stuck side))

-- Where lists of acts are appended, each part that has no type of its own is given one: otherwise
-- coercions between the parts are searched for.
abbrev IoActs := List (MachAct IoPc IoAct UInt8)

/-- A call that finds nothing to do and gets the lock, up to `ioq_wait`. -/
def acquireCall : List (MachAct IoPc IoAct UInt8) := .client .go :: List.replicate 5 .sync

def releaseCall : List (MachAct IoPc IoAct UInt8) := .client .go :: List.replicate 6 .sync

def sleeperActs : List (MachAct IoPc IoAct UInt8) :=
  ([.client .ioqGetchar] : IoActs) ++ acquireCall ++ ([.client .go] : IoActs)

def sleeper : Machine Unit IoPc IoState :=
  ((ioSystem.restrict WaitsFit).replay sleeperActs ioBoot).getD ioBoot

theorem sleeper_reachable : (ioSystem.restrict WaitsFit).Reachable sleeper :=
  (System.Reachable.init (S := ioSystem.restrict WaitsFit) ioBoot_init).replay_getD sleeperActs
    (by decide +kernel)

theorem waiter_stuck_iff_sleeper : ∃ tr, ioSystem.Run tr sleeper ∧
    sleeper.data.q.consumer = some 0xc009e000 ∧ (∀ p ∈ tr, WaitsFit p.1 p.2) ∧
    ∀ u ∈ System.states tr sleeper, WaiterStuck u := by
  obtain ⟨tr, run⟩ := sleeper_reachable
  obtain ⟨run, hfit⟩ := run.of_restrict
  exact ⟨tr, run, by decide +kernel, hfit, (waiter_stuck_iff tr sleeper run).mp hfit⟩

/-- Threads `1` and `2` ask for a byte while the queue is empty: `1` sleeps in `ioq_wait` and `2` in
`lock_acquire`. The main thread puts two bytes, `1` takes the first, and `2` goes to sleep on the
second. -/
def oversleepActs : List (MachAct IoPc IoAct UInt8) :=
  ([.start 1 0 .out, .start 2 0 .out, .client (.intr .on)] : IoActs) ++
  (List.replicate 32 .tick : IoActs) ++
  ([.idleBlock, .client (.intr .off), .client .ioqGetchar] : IoActs) ++ acquireCall ++
  ([.client .go] : IoActs) ++
  ([.client (.intr .off), .client .ioqGetchar, .client .go, .sync, .sync] : IoActs) ++
  ([.client (.intr .off), .client (.ioqPutchar 1), .client .go, .client (.ioqPutchar 2),
    .client .go, .client (.intr .on)] : IoActs) ++
  (List.replicate 32 .tick : IoActs) ++ releaseCall ++
  ([.client .go, .client (.intr .on), .tick] : IoActs) ++
  (List.replicate 4 .sync : IoActs) ++ ([.client .go] : IoActs)

/-- A consumer sleeps in `ioq_wait` while the queue holds a byte. -/
theorem consumer_oversleeps : ∃ m, ioSystem.Reachable m ∧ m.data.q.consumer = some 2 ∧
    m.sched.status 2 = .blocked ∧ m.data.q.bytes = [2] ∧ m.data.q.tail ≠ m.data.q.head := by
  refine ⟨(ioSystem.replay oversleepActs ioBoot).getD ioBoot,
    (System.Reachable.init ioBoot_init).replay_getD oversleepActs (by decide +kernel), ?_⟩
  decide +kernel

/-! ### A producer and a consumer that wait for each other -/

def Side.other : Side → Side
  | .producer => .consumer
  | .consumer => .producer

/-- Thread `t` sleeps in `ioq_wait` for `side`, which has to wait, and thread `u` of the other side
sleeps in `lock_acquire` on the lock, which `t` has. -/
structure Deadlock (side : Side) (m : Machine Unit IoPc IoState) (t u : Nat) : Prop where
  stuck : m.data.q.Stuck side
  asleep : m.Asleep t
  sleeping : (m.pc t).client.sleeping = some side
  holder : m.holder () = some t
  blocked : m.sched.status u = .blocked
  onLock : (m.pc u).isDown (.ofLock ())
  waiting : (m.pc u).client.waiting = some side.other

/-- The step is neither a call of `ioq_wait` while a thread of the other side is inside
`lock_acquire`, nor a call of `lock_acquire` while a thread of the other side sleeps in
`ioq_wait`. -/
def NoCrossing (m : Machine Unit IoPc IoState) (a : MachAct IoPc IoAct UInt8) : Prop :=
  ∀ side, (Waits side m a → ∀ u ∈ m.sched.threadAllList, ¬ InAcquire side.other m u) ∧
    (Acquires side m a → m.data.q.waiter side.other = none)

/-- Nobody is inside `lock_acquire` while a thread of the other side sleeps in `ioq_wait`. -/
def Apart (m : Machine Unit IoPc IoState) : Prop :=
  ∀ side, m.data.q.waiter side ≠ none → ∀ u, ¬ InAcquire side.other m u

theorem other_other (side : Side) : side.other.other = side := by
  cases side <;> rfl

theorem apart_step {m m' : Machine Unit IoPc IoState} {a : MachAct IoPc IoAct UInt8}
    (hinv : IoInv m) (h : Apart m) (hno : NoCrossing m a) (hmoved : IoMoved m a m') :
    Apart m' := by
  intro side hw u hu
  -- a slot that was filled before keeps everybody of the other side out of `lock_acquire`
  have hold : m.data.q.waiter side ≠ none → False := by
    intro hw
    rcases hmoved.acquire side.other u hu with hin | hacq
    · exact h side hw u hin
    · exact hw (other_other side ▸ (hno side.other).2 hacq)
  generalize hq : m'.data.q = q at hw
  have hmove := hq ▸ hmoved.queue
  cases hmove with
  | same => exact hold hw
  | wait side' hwait =>
    rw [waiter_setWaiter] at hw
    split at hw
    · next heq =>
      subst heq
      rcases hmoved.acquire side.other u hu with hin | hacq
      · have hall : u ∈ m.sched.threadAllList := by
          by_contra hnew
          exact hin.1 (hinv.sync.sema.unborn u hnew)
        exact (hno side).1 hwait u hall hin
      · obtain ⟨-, k, hk, htest, -⟩ := hacq
        obtain ⟨-, k', hk', hwaits⟩ := hwait
        obtain rfl : k = k' := Pc.run.inj (hk.symm.trans hk')
        cases k <;> simp only [IoPc.testing, IoPc.waiting, reduceCtorEq] at htest hwaits
    · exact hold hw
  | take =>
    cases side with
    | producer => exact hw rfl
    | consumer => exact hold hw
  | store =>
    cases side with
    | producer => exact hold hw
    | consumer => exact hw rfl

/-- In every run without crossing steps, no producer and consumer wait for each other. -/
theorem no_deadlock (tr : List (Machine Unit IoPc IoState × MachAct IoPc IoAct UInt8))
    (m : Machine Unit IoPc IoState) (run : ioSystem.Run tr m)
    (hno : ∀ p ∈ tr, NoCrossing p.1 p.2) (side : Side) (t u : Nat) : ¬ Deadlock side m t u := by
  have hinv : IoInv m ∧ Apart m := by
    refine run.invariant_of (C := NoCrossing) (I := fun m => IoInv m ∧ Apart m) ?_ ?_ hno
    · intro s hs
      obtain ⟨-, ⟨q, hq⟩, -⟩ := id hs
      refine ⟨IoInv.init hs, fun side hw => absurd ?_ hw⟩
      rw [hq]
      cases side <;> rfl
    · intro s a t hs hc hstep
      obtain ⟨t', heq, ht'⟩ := hs.1.step hstep.1
      exact hstep.eq_of_ok heq ▸ ⟨ht'.inv, apart_step hs.1 hs.2 hc ht'⟩
  intro hdead
  have hti : t ≠ m.sched.idleThread := by
    rintro rfl
    have hsleep := hdead.sleeping
    rw [hinv.1.idle] at hsleep
    exact nomatch hsleep
  obtain ⟨side', hsleep, hw⟩ := hinv.1.asleep t hti hdead.asleep
  obtain rfl : side = side' := Option.some.inj (hdead.sleeping.symm.trans hsleep)
  exact hinv.2 side (by rw [hw]; exact Option.some_ne_none t) u
    ⟨Pc.not_isRun_of_isDown hdead.onLock, hdead.waiting⟩

instance (side : Side) (m : Machine Unit IoPc IoState) (a : MachAct IoPc IoAct UInt8) :
    Decidable (Acquires side m a) :=
  match hp : m.pc m.sched.runningThread with
  | .run k => decidable_of_iff (a = .client .go ∧ k.testing = some side ∧ m.data.q.Stuck side)
      (by simp [Acquires, hp])
  | .down .. => .isFalse (by simp [Acquires, hp])
  | .lock .. => .isFalse (by simp [Acquires, hp])

instance (side : Side) (m : Machine Unit IoPc IoState) (t : Nat) :
    Decidable (InAcquire side m t) :=
  inferInstanceAs (Decidable (_ ∧ _))

instance (side : Side) (m : Machine Unit IoPc IoState) (t u : Nat) :
    Decidable (Deadlock side m t u) :=
  decidable_of_iff (m.data.q.Stuck side ∧
    (t ∈ m.sched.threadAllList ∧ (m.pc t).isRun ∧ (m.sched.status t).isBlocked = true) ∧
    (m.pc t).client.sleeping = some side ∧ m.holder () = some t ∧ m.sched.status u = .blocked ∧
    (m.pc u).isDown (.ofLock ()) ∧ (m.pc u).client.waiting = some side.other)
    ⟨fun ⟨h1, h2, h3, h4, h5, h6, h7⟩ => ⟨h1, h2, h3, h4, h5, h6, h7⟩,
      fun ⟨h1, h2, h3, h4, h5, h6, h7⟩ => ⟨h1, h2, h3, h4, h5, h6, h7⟩⟩

instance (m : Machine Unit IoPc IoState) (a : MachAct IoPc IoAct UInt8) :
    Decidable (NoCrossing m a) :=
  inferInstanceAs (Decidable (∀ side,
    (Waits side m a → ∀ u ∈ m.sched.threadAllList, ¬ InAcquire side.other m u) ∧
    (Acquires side m a → m.data.q.waiter side.other = none)))

/-- The main thread puts `n` bytes for which there is room. -/
def putActs (n : Nat) : List (MachAct IoPc IoAct UInt8) :=
  (List.replicate n [.client (.ioqPutchar 7), .client .go]).flatten

/-- The running thread takes `n` bytes that are there. -/
def getActs (n : Nat) : List (MachAct IoPc IoAct UInt8) :=
  (List.replicate n [.client .ioqGetchar, .client .go]).flatten

/-- The main thread fills the queue and sleeps in `ioq_wait`; thread `1` runs next. -/
def fillActs : List (MachAct IoPc IoAct UInt8) :=
  ([.start 1 10 .out] : IoActs) ++ putActs 63 ++ ([.client (.ioqPutchar 7)] : IoActs) ++
    acquireCall ++ ([.client .go, .idleBlock] : IoActs)

def filled : Machine Unit IoPc IoState :=
  ((ioSystem.restrict NoCrossing).replay fillActs ioBoot).getD ioBoot

theorem filled_reachable : (ioSystem.restrict NoCrossing).Reachable filled :=
  (System.Reachable.init (S := ioSystem.restrict NoCrossing) ioBoot_init).replay_getD fillActs
    (by decide +kernel)

theorem no_deadlock_filled :
    (filled.data.q.Stuck .producer ∧ filled.data.q.producer = some 0xc009e000 ∧
      filled.holder () = some 0xc009e000) ∧
    ∀ side t u, ¬ Deadlock side filled t u := by
  obtain ⟨tr, run⟩ := filled_reachable
  exact ⟨by decide +kernel, no_deadlock tr filled run.of_restrict.1 run.of_restrict.2⟩

/-- Thread `1` drains the queue and finds the lock taken when it wants to wait for more; the main
thread, woken by the first byte, gives the lock back, fills the queue again, takes the lock before
thread `1` does, and sleeps in `ioq_wait`. -/
def crossActs : List (MachAct IoPc IoAct UInt8) :=
  fillActs ++ ([.client (.intr .off)] : IoActs) ++ getActs 63 ++
  ([.client .ioqGetchar, .client .go, .sync, .sync] : IoActs) ++ releaseCall ++
  ([.client .go] : IoActs) ++ putActs 62 ++ ([.client (.ioqPutchar 7)] : IoActs) ++
  acquireCall ++ ([.client .go, .sync] : IoActs)

/-- The queue is full, the main thread sleeps in `ioq_wait` with the lock, and thread `1`, which
could make room, sleeps in `lock_acquire`. -/
theorem producer_consumer_deadlock :
    ∃ m, ioSystem.Reachable m ∧ Deadlock .producer m 0xc009e000 1 := by
  refine ⟨(ioSystem.replay crossActs ioBoot).getD ioBoot,
    (System.Reachable.init ioBoot_init).replay_getD crossActs (by decide +kernel), ?_⟩
  decide +kernel

end OriginOS
