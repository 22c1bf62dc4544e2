import OriginOS.Thread.Sched

/-! Semaphores and locks of `thread/sync.c`, as programs that threads run step by step.

`sema_down` and `sema_up` run with interrupts off, so they are atomic up to the `thread_block` in
`sema_down`; `lock_acquire` and `lock_release` run with whatever interrupt status their caller has,
so a switch can fall between any two of their memory accesses. `Pc` names these places. The code
around the calls is a client: `κ` are its own places, `δ` is its data, and `ι` names the locks and
semaphores. -/

namespace OriginOS

/-- `struct semaphore`: a `uint8_t` value and the `general_tag`s of the waiting threads. -/
structure Semaphore where
  value : Nat
  waiters : List Nat
deriving DecidableEq, Repr

def semaInit (value : Nat) : Semaphore := ⟨value, []⟩

/-- The pass of the loop in `sema_down` that finds the value 0: the thread queues up and blocks. -/
def semaDownBlock (sema : Semaphore) (s : Sched) : Except Panic (Semaphore × Sched) := do
  let cur := s.runningThread
  assert (cur ∉ sema.waiters)
    ⟨"./thread/sync.c", 24, "sema_down",
      "!elem_find(&psema->waiters, &running_thread()->general_tag)"⟩
  if cur ∈ sema.waiters then
    panicSpin ⟨"./thread/sync.c", 26, "sema_down",
      "sema_down: thread blocked has been in waiter list\n"⟩
  else
    let s ← threadBlock .blocked s
    pure ({ sema with waiters := sema.waiters ++ [cur] }, s)

def semaDownTake (sema : Semaphore) : Except Panic Semaphore := do
  let value := (sema.value + 2 ^ 8 - 1) % 2 ^ 8
  assert (value = 0) ⟨"./thread/sync.c", 35, "sema_down", "psema->value == 0"⟩
  pure { sema with value }

/-- The thread that `sema_up` takes off the waiters, if there is one. -/
def semaUpWake (sema : Semaphore) (s : Sched) : Except Panic (Semaphore × Sched) := do
  match sema.waiters with
  | [] => pure (sema, s)
  | threadBlocked :: rest =>
    let s ← threadUnblock threadBlocked s
    pure ({ sema with waiters := rest }, s)

def semaUp (sema : Semaphore) (s : Sched) : Except Panic (Semaphore × Sched) := do
  let oldStatus := s.intrStatus
  let s := intrDisable s
  assert (sema.value = 0) ⟨"./thread/sync.c", 45, "sema_up", "psema->value == 0"⟩
  let (sema, s) ← semaUpWake sema s
  let value := (sema.value + 1) % 2 ^ 8
  assert (value = 1) ⟨"./thread/sync.c", 51, "sema_up", "psema->value == 1"⟩
  pure ({ sema with value }, intrSetStatus oldStatus s)

/-- A semaphore: one that the client uses by itself, or the one inside a lock. -/
inductive SemaRef (ι : Type) where
  | bare (i : ι)
  | ofLock (i : ι)
deriving DecidableEq, Repr

/-- A place in `lock_acquire` or `lock_release`, before the access that it is named after. The
increment and the decrement of `holder_repeat_nr` load it and then store the new value. -/
inductive LockPc where
  | acqTest | acqDown | acqHolder | acqCheck | acqSet | acqLoad | acqStore (n : Nat)
  | relCheck | relTest | relLoad | relStore (n : Nat) | relOne | relHolder | relRepeat | relUp
deriving DecidableEq, Repr

/-- Where a thread is. `run k` is the client's code at `k`, where every call returns to.
`down r old k` is the `thread_block` inside `sema_down` of semaphore `r`, whose saved interrupt
status is `old`. `lock i p k` is in `lock_acquire` or `lock_release` of lock `i`. -/
inductive Pc (ι κ : Type) where
  | run (k : κ)
  | down (r : SemaRef ι) (old : IntrStatus) (k : κ)
  | lock (i : ι) (p : LockPc) (k : κ)
deriving DecidableEq, Repr

/-- The place that `sema_down` of a semaphore returns to: the client, or `lock_acquire`. -/
def SemaRef.afterDown {ι κ : Type} : SemaRef ι → κ → Pc ι κ
  | .bare _, k => .run k
  | .ofLock i, k => .lock i .acqHolder k

inductive SyncCall (ι : Type) where
  | lockAcquire (i : ι)
  | lockRelease (i : ι)
  | semaDown (i : ι)
  | semaUp (i : ι)
deriving DecidableEq, Repr

/-- The kernel with its threads. The fields of `struct lock` number `i` are `holder i`, which is
`none` for `NULL`, `sema (.ofLock i)`, and the `uint32_t` `holderRepeatNr i`. `depth t i` counts the
acquisitions of lock `i` that thread `t` has made and not released, and `woken r` lists the threads
that `sema_up` took off the waiters of `r` and that have not tested the value again; neither is
part of the code. -/
structure Machine (ι κ δ : Type) where
  sched : Sched
  sema : SemaRef ι → Semaphore
  holder : ι → Option Nat
  holderRepeatNr : ι → Nat
  pc : Nat → Pc ι κ
  data : δ
  depth : Nat → ι → Nat
  woken : SemaRef ι → List Nat

namespace Machine

variable {ι κ δ : Type} [DecidableEq ι]

def goto (m : Machine ι κ δ) (pc : Pc ι κ) : Machine ι κ δ :=
  { m with pc := Function.update m.pc m.sched.runningThread pc }

def setSema (m : Machine ι κ δ) (r : SemaRef ι) (sema : Semaphore) : Machine ι κ δ :=
  { m with sema := Function.update m.sema r sema }

def setHolder (m : Machine ι κ δ) (i : ι) (holder : Option Nat) : Machine ι κ δ :=
  { m with holder := Function.update m.holder i holder }

def setRepeat (m : Machine ι κ δ) (i : ι) (n : Nat) : Machine ι κ δ :=
  { m with holderRepeatNr := Function.update m.holderRepeatNr i n }

/-- The depth of the running thread in lock `i` becomes `n`. -/
def setDepth (m : Machine ι κ δ) (i : ι) (n : Nat) : Machine ι κ δ :=
  let cur := m.sched.runningThread
  { m with depth := Function.update m.depth cur (Function.update (m.depth cur) i n) }

/-- The running thread tests the value of `r`: it is no longer woken and waiting for its turn. -/
def retest (m : Machine ι κ δ) (r : SemaRef ι) : Machine ι κ δ :=
  let cur := m.sched.runningThread
  { m with woken := Function.update m.woken r ((m.woken r).filter (· ≠ cur)) }

/-- `sema_up` takes the first waiter of `r` off the list, if there is one. -/
def wake (m : Machine ι κ δ) (r : SemaRef ι) : Machine ι κ δ :=
  { m with woken := Function.update m.woken r ((m.sema r).waiters.take 1 ++ m.woken r) }

/-- One test of the loop in `sema_down`, with interrupts off. -/
def downPass (r : SemaRef ι) (old : IntrStatus) (k : κ) (m : Machine ι κ δ) :
    Except Panic (Machine ι κ δ) := do
  if (m.sema r).value = 0 then
    let (sema, sched) ← semaDownBlock (m.sema r) m.sched
    pure { ((m.retest r).goto (.down r old k)).setSema r sema with sched }
  else
    let sema ← semaDownTake (m.sema r)
    pure { ((m.retest r).goto (r.afterDown k)).setSema r sema with
      sched := intrSetStatus old m.sched }

def semaDown (r : SemaRef ι) (k : κ) (m : Machine ι κ δ) : Except Panic (Machine ι κ δ) :=
  downPass r m.sched.intrStatus k { m with sched := intrDisable m.sched }

/-- `sema_up` by the running thread, or by an interrupt handler. -/
def up (r : SemaRef ι) (m : Machine ι κ δ) : Except Panic (Machine ι κ δ) := do
  let (sema, sched) ← semaUp (m.sema r) m.sched
  pure { (m.wake r).setSema r sema with sched }

/-- The next step of the running thread inside `lock_acquire` or `lock_release` of lock `i`. -/
def lockStep (i : ι) (k : κ) (m : Machine ι κ δ) : LockPc → Except Panic (Machine ι κ δ)
  | .acqTest =>
    if m.holder i ≠ some m.sched.runningThread then pure (m.goto (.lock i .acqDown k))
    else pure (m.goto (.lock i .acqLoad k))
  | .acqDown => semaDown (.ofLock i) k m
  | .acqHolder =>
    pure ((m.setHolder i (some m.sched.runningThread)).goto (.lock i .acqCheck k))
  | .acqCheck => do
    assert (m.holderRepeatNr i = 0)
      ⟨"./thread/sync.c", 62, "lock_acquire", "plock->holder_repeat_nr == 0"⟩
    pure (m.goto (.lock i .acqSet k))
  | .acqSet =>
    pure (((m.setRepeat i 1).setDepth i (m.depth m.sched.runningThread i + 1)).goto (.run k))
  | .acqLoad => pure (m.goto (.lock i (.acqStore ((m.holderRepeatNr i + 1) % 2 ^ 32)) k))
  | .acqStore n =>
    pure (((m.setRepeat i n).setDepth i (m.depth m.sched.runningThread i + 1)).goto (.run k))
  | .relCheck => do
    assert (m.holder i = some m.sched.runningThread)
      ⟨"./thread/sync.c", 70, "lock_release", "plock->holder == running_thread()"⟩
    pure (m.goto (.lock i .relTest k))
  | .relTest =>
    if m.holderRepeatNr i > 1 then pure (m.goto (.lock i .relLoad k))
    else pure (m.goto (.lock i .relOne k))
  | .relLoad =>
    pure (m.goto (.lock i (.relStore ((m.holderRepeatNr i + 2 ^ 32 - 1) % 2 ^ 32)) k))
  | .relStore n =>
    pure (((m.setRepeat i n).setDepth i (m.depth m.sched.runningThread i - 1)).goto (.run k))
  | .relOne => do
    assert (m.holderRepeatNr i = 1)
      ⟨"./thread/sync.c", 75, "lock_release", "plock->holder_repeat_nr == 1"⟩
    pure (m.goto (.lock i .relHolder k))
  | .relHolder => pure ((m.setHolder i none).goto (.lock i .relRepeat k))
  | .relRepeat => pure ((m.setRepeat i 0).goto (.lock i .relUp k))
  | .relUp =>
    up (.ofLock i) ((m.setDepth i (m.depth m.sched.runningThread i - 1)).goto (.run k))

/-- The next step of the running thread inside `thread/sync.c`. -/
def syncStep (m : Machine ι κ δ) : Except Panic (Machine ι κ δ) :=
  match m.pc m.sched.runningThread with
  | .run _ => pure m
  | .down r old k => downPass r old k m
  | .lock i p k => lockStep i k m p

/-- The running thread calls into `thread/sync.c` and will return to `k`. -/
def call (c : SyncCall ι) (k : κ) (m : Machine ι κ δ) : Except Panic (Machine ι κ δ) :=
  match c with
  | .lockAcquire i => pure (m.goto (.lock i .acqTest k))
  | .lockRelease i => pure (m.goto (.lock i .relCheck k))
  | .semaDown i => semaDown (.bare i) k m
  | .semaUp i => up (.bare i) (m.goto (.run k))

end Machine

/-- The code around the calls into `thread/sync.c`. `guard t k s d a` admits action `a` of thread
`t` at its place `k`; `exec` performs it, with interrupts as they are, up to the next place and the
call, if any, that it ends in. `handler` are the interrupt handlers besides the timer's. -/
structure Client (ι κ δ α β : Type) where
  start : κ → Prop
  guard : Nat → κ → Sched → δ → α → Prop
  exec : α → Nat → κ → Sched → δ → Except Panic (Sched × δ × κ × Option (SyncCall ι))
  handler : β → Sched → δ → Except Panic (Sched × δ)

/-- One step of the machine: an interrupt, the idle loop, the creation of a thread, or the next
step of the running thread in its own code or in `thread/sync.c`. -/
inductive MachAct (κ α β : Type) where
  | tick
  | irq (b : β)
  | idleBlock
  | idleHlt
  | start (thread prio : Nat) (k : κ)
  | client (a : α)
  | sync
deriving DecidableEq, Repr

namespace Client

variable {ι κ δ α β : Type} [DecidableEq ι] (C : Client ι κ δ α β)

def Enabled (m : Machine ι κ δ) : MachAct κ α β → Prop
  | .tick | .irq _ => m.sched.intrStatus = .on
  | .idleBlock | .idleHlt => m.sched.runningThread = m.sched.idleThread
  | .start thread _ k => thread ≠ 0 ∧ thread ∉ m.sched.threadAllList ∧ C.start k
  | .client a => m.sched.runningThread ≠ m.sched.idleThread ∧
    ∃ k, m.pc m.sched.runningThread = .run k ∧
      C.guard m.sched.runningThread k m.sched m.data a
  | .sync => ∀ k, m.pc m.sched.runningThread ≠ .run k

/-- The client's part of a step of the running thread. -/
def clientStep (a : α) (m : Machine ι κ δ) : Except Panic (Machine ι κ δ) := do
  let cur := m.sched.runningThread
  match m.pc cur with
  | .run k =>
    let (sched, data, k, c) ← C.exec a cur k m.sched m.data
    let m := { m with sched, data, pc := Function.update m.pc cur (.run k) }
    match c with
    | none => pure m
    | some c => m.call c k
  | _ => pure m

def step (a : MachAct κ α β) (m : Machine ι κ δ) : Except Panic (Machine ι κ δ) := do
  match a with
  | .tick => pure { m with sched := ← intrTimerHandler m.sched }
  | .irq b =>
    -- the handler runs with interrupts off and `iret` restores the flag
    let (sched, data) ← C.handler b (intrDisable m.sched) m.data
    pure { m with sched := intrSetStatus .on sched, data }
  | .idleBlock => pure { m with sched := ← threadBlock .blocked m.sched }
  | .idleHlt => pure { m with sched := intrSetStatus .on m.sched }
  | .start thread prio k =>
    pure { m with
      sched := ← threadStart thread prio m.sched, pc := Function.update m.pc thread (.run k) }
  | .client a => C.clientStep a m
  | .sync => m.syncStep

end Client

end OriginOS
