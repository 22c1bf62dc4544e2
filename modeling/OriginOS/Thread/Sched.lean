import Mathlib.Data.List.Basic
import Mathlib.Logic.Function.Basic
import OriginOS.Kernel.Debug

/-! The scheduler of `thread/thread.c` and the timer interrupt of `device/timer.c` that drives it.
A thread is named by the address of its PCB page.  The two thread lists are sequences of PCBs: they
link the `general_tag` and the `all_list_tag` of each. -/

namespace OriginOS

inductive TaskStatus where
  | runing | ready | blocked | waiting | hanging | died
deriving DecidableEq, Repr

/-- A status that takes a thread out of scheduling until `thread_unblock`. -/
def TaskStatus.isBlocked : TaskStatus → Bool
  | .blocked | .waiting | .hanging => true
  | _ => false

inductive IntrStatus where
  | off | on
deriving DecidableEq, Repr

/-- The fields of `struct task_struct` that scheduling reads and writes. -/
structure TaskStruct where
  pid : Nat
  status : TaskStatus
  priority : Nat
  ticks : Nat
  elapsedTicks : Nat
  stackMagic : Nat
deriving DecidableEq, Repr

/-- The state that scheduling works on. `resume t` is the interrupt status that a switched-out
thread `t` sets when it is switched in again: the `old_status` of its `thread_yield` or
`thread_block`, the interrupt flag saved by the timer interrupt, or `INTR_ON` for a new thread,
which starts with `intr_enable` in `kernel_thread`. -/
structure Sched where
  task : Nat → TaskStruct
  runningThread : Nat
  mainThread : Nat
  idleThread : Nat
  threadReadyList : List Nat
  threadAllList : List Nat
  intrStatus : IntrStatus
  resume : Nat → IntrStatus
  ticks : Nat
  nextPid : Nat

namespace Sched

def status (s : Sched) (t : Nat) : TaskStatus := (s.task t).status

def setTask (s : Sched) (t : Nat) (task : TaskStruct) : Sched :=
  { s with task := Function.update s.task t task }

def setStatus (s : Sched) (t : Nat) (st : TaskStatus) : Sched :=
  s.setTask t { s.task t with status := st }

end Sched

/-- `intr_disable`, without the old status it returns. -/
def intrDisable (s : Sched) : Sched := { s with intrStatus := .off }

def intrSetStatus (status : IntrStatus) (s : Sched) : Sched := { s with intrStatus := status }

def threadUnblock (pthread : Nat) (s : Sched) : Except Panic Sched := do
  let oldStatus := s.intrStatus
  let s := intrDisable s
  assert (s.status pthread).isBlocked
    ⟨"./thread/thread.c", 179, "thread_unblock",
      "(pthread->status == TASK_BLOCKED) || (pthread->status == TASK_WAITING) || " ++
        "(pthread->status == TASK_HANGING)"⟩
  let s ←
    if s.status pthread ≠ .ready then do
      assert (pthread ∉ s.threadReadyList)
        ⟨"./thread/thread.c", 181, "thread_unblock",
          "!elem_find(&thread_ready_list, &pthread->general_tag)"⟩
      if pthread ∈ s.threadReadyList then
        panicSpin ⟨"./thread/thread.c", 183, "thread_unblock",
          "Thread Unblock: Blocked thread un ready list\n"⟩
      else
        pure ({ s with threadReadyList := pthread :: s.threadReadyList }.setStatus pthread .ready)
    else
      pure s
  pure (intrSetStatus oldStatus s)

/-- The first part of `schedule`: a caller that is still running goes to the end of the ready
list with fresh ticks. -/
def scheduleRequeue (s : Sched) : Except Panic Sched :=
  let cur := s.runningThread
  if s.status cur = .runing then do
    assert (cur ∉ s.threadReadyList)
      ⟨"./thread/thread.c", 130, "schedule", "!elem_find(&thread_ready_list, &cur->general_tag)"⟩
    let task := s.task cur
    pure ({ s with threadReadyList := s.threadReadyList ++ [cur] }.setTask cur
      { task with ticks := task.priority, status := .ready })
  else
    pure s

/-- `switch_to(cur, next)`: `next` goes on behind its own switch, where its first act is to set the
interrupt status that it was switched out with. -/
def switchTo (next : Nat) (s : Sched) : Sched :=
  { s with runningThread := next, intrStatus := s.resume next }

/-- The last part of `schedule`: run the first thread of the ready list. -/
def scheduleNext (s : Sched) : Except Panic Sched :=
  match s.threadReadyList with
  | [] => panicSpin ⟨"./thread/thread.c", 141, "schedule", "!list_empty(&thread_ready_list)"⟩
  | next :: rest =>
    pure (switchTo next ({ s with threadReadyList := rest }.setStatus next .runing))

def schedule (s : Sched) : Except Panic Sched := do
  assert (s.intrStatus = .off)
    ⟨"./thread/thread.c", 126, "schedule", "intr_get_status() == INTR_OFF"⟩
  let s ← scheduleRequeue s
  let s ← if s.threadReadyList = [] then threadUnblock s.idleThread s else pure s
  scheduleNext s

/-- Record the status that the running thread sets when it is switched in again. -/
def Sched.saveIntr (status : IntrStatus) (s : Sched) : Sched :=
  { s with resume := Function.update s.resume s.runningThread status }

def threadYield (s : Sched) : Except Panic Sched := do
  let cur := s.runningThread
  let s := intrDisable (s.saveIntr s.intrStatus)
  assert (cur ∉ s.threadReadyList)
    ⟨"./thread/thread.c", 156, "thread_yield",
      "!elem_find(&thread_ready_list, &cur->general_tag)"⟩
  schedule ({ s with threadReadyList := s.threadReadyList ++ [cur] }.setStatus cur .ready)

def threadBlock (stat : TaskStatus) (s : Sched) : Except Panic Sched := do
  assert stat.isBlocked
    ⟨"./thread/thread.c", 166, "thread_block",
      "(stat == TASK_BLOCKED) || (stat == TASK_WAITING) || (stat == TASK_HANGING)"⟩
  let s := intrDisable (s.saveIntr s.intrStatus)
  schedule (s.setStatus s.runningThread stat)

/-- `intr_timer_handler`, entered through an interrupt gate while interrupts are on. -/
def intrTimerHandler (s : Sched) : Except Panic Sched := do
  let s := intrDisable (s.saveIntr s.intrStatus)
  let cur := s.runningThread
  let task := s.task cur
  assert (task.stackMagic = 0x19870916)
    ⟨"./device/timer.c", 24, "intr_timer_handler", "cur_thread->stack_magic == 0x19870916"⟩
  let s := s.setTask cur { task with elapsedTicks := (task.elapsedTicks + 1) % 2 ^ 32 }
  let s := { s with ticks := (s.ticks + 1) % 2 ^ 32 }
  if task.ticks = 0 then
    schedule s
  else
    -- `iret` restores the interrupt flag
    pure (intrSetStatus (s.resume cur)
      (s.setTask cur { s.task cur with ticks := task.ticks - 1 }))

/-- `init_thread`, for the fields of `TaskStruct`; `prio` is narrowed to the `uint8_t` fields and
the process id to `pid_t`. -/
def initThread (pthread prio : Nat) (s : Sched) : Except Panic Sched := do
  assert (pthread ≠ 0) ⟨"./lib/string.c", 6, "memset", "dst_ != NULL"⟩
  let pid := (s.nextPid + 1) % 2 ^ 16
  let status := if pthread = s.mainThread then TaskStatus.runing else TaskStatus.ready
  pure ({ s with nextPid := pid }.setTask pthread
    { pid, status, priority := prio % 2 ^ 8, ticks := prio % 2 ^ 8, elapsedTicks := 0,
      stackMagic := 0x19870916 })

/-- `thread_start`, where `get_kernel_pages` returned `thread` for the PCB. -/
def threadStart (thread prio : Nat) (s : Sched) : Except Panic Sched := do
  let s ← initThread thread prio s
  let s := { s with resume := Function.update s.resume thread .on }
  assert (thread ∉ s.threadReadyList)
    ⟨"./thread/thread.c", 106, "thread_start",
      "!elem_find(&thread_ready_list, &thread->general_tag)"⟩
  let s := { s with threadReadyList := s.threadReadyList ++ [thread] }
  assert (thread ∉ s.threadAllList)
    ⟨"./thread/thread.c", 109, "thread_start",
      "!elem_find(&thread_all_list, &thread->all_list_tag)"⟩
  pure { s with threadAllList := s.threadAllList ++ [thread] }

def makeMainThread (s : Sched) : Except Panic Sched := do
  let s := { s with mainThread := s.runningThread }
  let s ← initThread s.mainThread 31 s
  assert (s.mainThread ∉ s.threadAllList)
    ⟨"./thread/thread.c", 120, "make_main_thread",
      "!elem_find(&thread_all_list, &main_thread->all_list_tag)"⟩
  pure { s with threadAllList := s.threadAllList ++ [s.mainThread] }

/-- `thread_init`, where `idlePage` is the page that `get_kernel_pages` returns for the idle
thread. -/
def threadInit (idlePage : Nat) (s : Sched) : Except Panic Sched := do
  let s := { s with threadReadyList := [], threadAllList := [] }
  let s ← makeMainThread s
  let s ← threadStart idlePage 10 s
  pure { s with idleThread := idlePage }

end OriginOS
