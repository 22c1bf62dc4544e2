import OriginOS.Kernel.PageRuns
import OriginOS.Thread.SyncRuns

/-! The page directory and the kernel stack that the processor uses for the running thread:
`userprog/process.c` and `userprog/tss.c`, called by `schedule`, and the two places in `fs/inode.c`
that set the `pgdir` of the running thread to `NULL` while they allocate or free memory. -/

namespace OriginOS

open Lib

/-- The `pgdir` of each thread, with 0 for `NULL`, and the registers that `process_activate` loads.
-/
structure Cpu where
  pgdir : Nat → Nat
  cr3 : Nat
  esp0 : Nat

namespace Cpu

def setPgdir (c : Cpu) (t pgdir : Nat) : Cpu := { c with pgdir := Function.update c.pgdir t pgdir }

/-- `page_dir_activate`. The pages of page directories are never freed, so that `addr_v2p` is a
function of their addresses. -/
def pageDirActivate (addrV2p : Nat → Nat) (pThread : Nat) (c : Cpu) : Cpu :=
  { c with cr3 := if c.pgdir pThread ≠ 0 then addrV2p (c.pgdir pThread) else 0x100000 }

def updateTssEsp (pthread : Nat) (c : Cpu) : Cpu := { c with esp0 := (pthread + pgSize) % 2 ^ 32 }

def processActivate (addrV2p : Nat → Nat) (pThread : Nat) (c : Cpu) : Except Panic Cpu := do
  assert (pThread ≠ 0) ⟨"./userprog/process.c", 53, "process_activate", "p_thread != NULL"⟩
  let c := c.pageDirActivate addrV2p pThread
  pure (if c.pgdir pThread ≠ 0 then c.updateTssEsp pThread else c)

/-- The registers are those of thread `t` with page directory `pgdir`. -/
def Loaded (addrV2p : Nat → Nat) (t pgdir : Nat) (c : Cpu) : Prop :=
  c.cr3 = addrV2p pgdir ∧ c.esp0 = (t + pgSize) % 2 ^ 32

end Cpu

/-- The address that is loaded is the one that `page_dir_activate` reads from the page tables in
memory, where the page directory of each thread stays in its frame. -/
theorem FrameInv.pageDirActivate_cpu {g : Frames} {s : MemState} (h : FrameInv g s)
    {addrV2p : Nat → Nat} {c : Cpu} (hc : ∀ t, c.pgdir t = (s.task t).pgdir)
    (haddr : ∀ t, c.pgdir t ≠ 0 → addrV2p (c.pgdir t) = g.dir t) (t : Nat) :
    Mem.pageDirActivate t s = .ok ((), { s with cr3 := (c.pageDirActivate addrV2p t).cr3 }) := by
  have hcr3 : (c.pageDirActivate addrV2p t).cr3 = g.dir t := by
    unfold Cpu.pageDirActivate
    by_cases ht : c.pgdir t = 0
    · rw [if_neg (not_not.mpr ht), h.thread t (hc t ▸ ht)]
      rfl
    · rw [if_pos ht, haddr t ht]
  rw [h.pageDirActivate_ok, hcr3]

/-- `process_execute`, for the fields of `TaskStruct`, where `get_kernel_pages` returned `thread`
for the PCB. -/
def processExecute (thread : Nat) (s : Sched) : Except Panic Sched := do
  let s ← initThread thread 31 s
  let s := { s with resume := Function.update s.resume thread .on }
  let oldStatus := s.intrStatus
  let s := intrDisable s
  assert (thread ∉ s.threadReadyList)
    ⟨"./userprog/process.c", 108, "process_execute",
      "!elem_find(&thread_ready_list, &thread->general_tag)"⟩
  let s := { s with threadReadyList := s.threadReadyList ++ [thread] }
  assert (thread ∉ s.threadAllList)
    ⟨"./userprog/process.c", 111, "process_execute",
      "!elem_find(&thread_all_list, &thread->all_list_tag)"⟩
  pure (intrSetStatus oldStatus { s with threadAllList := s.threadAllList ++ [thread] })

/-! ### What threads do -/

/-- Where a thread is: in code that does not touch `pgdir`, in the `sys_malloc` of `inode_open` for
the inode, or in the `sys_free` of `inode_close`, with the value of `pgdir` that is put back behind
it. -/
inductive InodePlace where
  | code
  | opening (curPagedirBak : Nat)
  | closing (curPagedirBak : Nat) (oldStatus : IntrStatus)
deriving DecidableEq, Repr

/-- The page directory that the thread has put aside, or 0. -/
def InodePlace.bak : InodePlace → Nat
  | code => 0
  | opening bak => bak
  | closing bak _ => bak

/-- What a thread does next. `inodeOpen` and `inodeClose` are calls that come to `sys_malloc` and to
`sys_free`, and `inodeOpened` and `inodeClosed` the code behind these. -/
inductive ProcAct (ι : Type) where
  | call (c : SyncCall ι)
  | yield
  | block (stat : TaskStatus)
  | unblock (t : Nat)
  | intr (status : IntrStatus)
  | inodeOpen
  | inodeOpened
  | inodeClose
  | inodeClosed
deriving DecidableEq, Repr

section Client

variable {ι : Type} [DecidableEq ι]

/-- What a thread may do at a place: `sys_malloc` and `sys_free` use the lock of a pool. -/
def procGuard (k : InodePlace) (s : Sched) : ProcAct ι → Prop
  | .call (.lockAcquire _) | .call (.lockRelease _) => True
  | .call _ | .yield | .intr _ | .inodeOpen | .inodeClose => k = .code
  | .block stat => k = .code ∧ stat.isBlocked = true
  | .unblock t => k = .code ∧ (s.status t).isBlocked = true
  | .inodeOpened => match k with
    | .opening _ => True
    | _ => False
  | .inodeClosed => match k with
    | .closing .. => True
    | _ => False

def procExec (a : ProcAct ι) (cur : Nat) (k : InodePlace) (s : Sched) (c : Cpu) :
    Except Panic (Sched × Cpu × InodePlace × Option (SyncCall ι)) :=
  match a, k with
  | .call call, k => pure (s, c, k, some call)
  | .yield, k => do pure (← threadYield s, c, k, none)
  | .block stat, k => do pure (← threadBlock stat s, c, k, none)
  | .unblock t, k => do pure (← threadUnblock t s, c, k, none)
  | .intr status, k => pure (intrSetStatus status s, c, k, none)
  | .inodeOpen, _ => pure (s, c.setPgdir cur 0, .opening (c.pgdir cur), none)
  | .inodeOpened, .opening bak => pure (s, c.setPgdir cur bak, .code, none)
  | .inodeClose, _ =>
    pure (intrDisable s, c.setPgdir cur 0, .closing (c.pgdir cur) s.intrStatus, none)
  | .inodeClosed, .closing bak old => pure (intrSetStatus old s, c.setPgdir cur bak, .code, none)
  | _, k => pure (s, c, k, none)

/-- The threads; an interrupt handler other than the timer's may wake a thread up. -/
def procClient : Client ι InodePlace Cpu (ProcAct ι) Nat where
  start k := k = .code
  guard _ k s _ a := procGuard k s a
  exec := procExec
  handler t s c := do pure (← threadUnblock t s, c)

def Machine.schedules (m : Machine ι InodePlace Cpu) :
    MachAct InodePlace (ProcAct ι) Nat → Bool
  | .tick => (m.sched.task m.sched.runningThread).ticks = 0
  | .idleBlock => true
  | .client .yield | .client (.block _) => true
  | .client (.call (.semaDown i)) => (m.sema (.bare i)).value = 0
  | .sync =>
    match m.pc m.sched.runningThread with
    | .down r _ _ => (m.sema r).value = 0
    | .lock i .acqDown _ => (m.sema (.ofLock i)).value = 0
    | _ => false
  | _ => false

/-- A step of the threads, the `sema_up` of the disk's interrupt handler, or `process_execute`,
where `create_page_dir` returned `pgdir`. -/
inductive CpuAct (ι : Type) where
  | mach (a : MachAct InodePlace (ProcAct ι) Nat)
  | diskIntr (i : ι)
  | processExecute (thread pgdir : Nat)
deriving DecidableEq, Repr

/-- When a step can be taken. The page of a new PCB is not in use. -/
def cpuGuard (m : Machine ι InodePlace Cpu) : CpuAct ι → Prop
  | .mach a => procClient.Enabled m a ∧ match a with
    | .start thread _ _ => thread ≠ m.sched.runningThread
    | _ => True
  | .diskIntr _ => m.sched.intrStatus = .on
  | .processExecute thread _ => m.pc m.sched.runningThread = .run .code ∧
    thread ≠ 0 ∧ thread ∉ m.sched.threadAllList ∧ thread ≠ m.sched.runningThread

/-- `init_thread` of a new thread clears its `pgdir`. -/
def Machine.clearPgdir (m : Machine ι InodePlace Cpu) :
    MachAct InodePlace (ProcAct ι) Nat → Machine ι InodePlace Cpu
  | .start thread _ _ => { m with data := m.data.setPgdir thread 0 }
  | _ => m

/-- `schedule` calls `process_activate` for the thread that it switches to. -/
def Machine.activate (addrV2p : Nat → Nat) (scheduled : Bool) (m : Machine ι InodePlace Cpu) :
    Except Panic (Machine ι InodePlace Cpu) := do
  if scheduled then
    pure { m with data := ← m.data.processActivate addrV2p m.sched.runningThread }
  else pure m

def cpuExec (addrV2p : Nat → Nat) (a : CpuAct ι) (m : Machine ι InodePlace Cpu) :
    Except Panic (Machine ι InodePlace Cpu) :=
  match a with
  | .mach a => do
    let m' ← procClient.step a m
    (m'.clearPgdir a).activate addrV2p (m.schedules a)
  | .diskIntr i => do
    let m' ← Machine.up (.bare i) { m with sched := intrDisable m.sched }
    pure { m' with sched := intrSetStatus .on m'.sched }
  | .processExecute thread pgdir => do
    pure { m with
      sched := ← OriginOS.processExecute thread m.sched
      data := m.data.setPgdir thread pgdir
      pc := Function.update m.pc thread (.run .code) }

/-- Threads and processes, from the state that `thread_init` leaves. -/
def cpuSystem (addrV2p : Nat → Nat) : System (Machine ι InodePlace Cpu) (CpuAct ι) Panic where
  init m := Fresh (· = .code) m ∧ (∀ t, m.data.pgdir t = 0) ∧ m.data.cr3 = 0x100000
  guard := cpuGuard
  exec := cpuExec addrV2p

end Client

end OriginOS
