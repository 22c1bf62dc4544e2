import OriginOS.Kernel.Pool
import OriginOS.Thread.Sync

/-! The ways into `palloc` and `pfree`: what the functions of `kernel/memory.c`, `thread/thread.c`
and `userprog/process.c` that allocate and free pages do to the pools and to their locks.

`bitmap_scan` and `bitmap_set` inside `palloc` are two steps, with interrupts as the caller has
them, so that a switch may fall between them. The data that the pools do not depend on is left to
the caller: how many pages a call takes, and for which of them `page_table_add` finds no page
table. -/

namespace OriginOS

inductive PoolOp where
  | lockAcquire (pf : PoolFlags)
  | lockRelease (pf : PoolFlags)
  | palloc (pf : PoolFlags)
  | pfree (pagePhyAddr : Nat)
deriving DecidableEq, Repr

namespace PoolOp

/-- `page_table_add`: a page table that is missing comes from the kernel pool. -/
def pageTableAdd (pdeAbsent : Bool) : List PoolOp :=
  if pdeAbsent then [.palloc .kernel] else []

/-- `malloc_page`; `pdeAbsent` tells for each page whether its page table is missing. -/
def mallocPage (pf : PoolFlags) (pdeAbsent : List Bool) : List PoolOp :=
  pdeAbsent.flatMap fun absent => .palloc pf :: pageTableAdd absent

/-- `get_kernel_pages`: `setup_page` made all the page tables of the kernel's half. -/
def getKernelPages (pgCnt : Nat) : List PoolOp := mallocPage .kernel (List.replicate pgCnt false)

/-- A body between `lock_acquire` and `lock_release`. -/
def locked (pf : PoolFlags) (body : List PoolOp) : List PoolOp :=
  .lockAcquire pf :: body ++ [.lockRelease pf]

/-- `mfree_page` on the frames with these numbers. -/
def mfreePage (pf : PoolFlags) (frames : List (Fin 3840)) : List PoolOp :=
  frames.map fun i => .pfree (frameAddr pf i)

end PoolOp

/-- A call, by a kernel thread or by a process inside a system call. -/
inductive PoolCall where
  | threadStart
  | processExecute
  | getKernelPages (pgCnt : Nat)
  | getUserPages (pdeAbsent : List Bool)
  | getAPage (pf : PoolFlags) (pdeAbsent : Bool)
  | sysMalloc (pf : PoolFlags) (pdeAbsent : List Bool)
  | sysFree (pf : PoolFlags) (frames : List (Fin 3840))
deriving DecidableEq, Repr

namespace PoolCall

/-- What the call does. `process_execute` allocates the PCB, the 23 pages of the bitmap of the
virtual range, and the page directory. -/
def body : PoolCall → List PoolOp
  | .threadStart => PoolOp.getKernelPages 1
  | .processExecute =>
    PoolOp.getKernelPages 1 ++ PoolOp.getKernelPages 23 ++ PoolOp.getKernelPages 1
  | .getKernelPages pgCnt => PoolOp.getKernelPages pgCnt
  | .getUserPages pdeAbsent => PoolOp.locked .user (PoolOp.mallocPage .user pdeAbsent)
  | .getAPage pf pdeAbsent =>
    PoolOp.locked pf (.palloc pf :: PoolOp.pageTableAdd pdeAbsent)
  | .sysMalloc pf pdeAbsent => PoolOp.locked pf (PoolOp.mallocPage pf pdeAbsent)
  | .sysFree pf frames => PoolOp.locked pf (PoolOp.mfreePage pf frames)

/-- A page table is missing only in the user's half. -/
def Possible : PoolCall → Prop
  | .getAPage pf pdeAbsent => pf = .kernel → pdeAbsent = false
  | .sysMalloc pf pdeAbsent => pf = .kernel → ∀ absent ∈ pdeAbsent, absent = false
  | _ => True

instance (c : PoolCall) : Decidable c.Possible :=
  match c with
  | .getAPage pf pdeAbsent => inferInstanceAs (Decidable (pf = .kernel → pdeAbsent = false))
  | .sysMalloc pf pdeAbsent =>
    inferInstanceAs (Decidable (pf = .kernel → ∀ absent ∈ pdeAbsent, absent = false))
  | .threadStart | .processExecute | .getKernelPages _ | .getUserPages _ | .sysFree .. =>
    .isTrue trivial

end PoolCall

inductive PoolEvent where
  | palloc (pagePhyAddr : Nat)
  | pfree (pagePhyAddr : Nat)
deriving DecidableEq, Repr

/-- The pools, and what `palloc` returned and `pfree` was called for, latest first. -/
structure PoolState where
  pool : PoolFlags → Pool
  log : List PoolEvent

/-- Where a thread is: before the rest of a call, which is empty outside, or in `palloc` between
`bitmap_scan`, which returned `bitIdx`, and `bitmap_set`. -/
inductive PoolPc where
  | rest (ops : List PoolOp)
  | set (pf : PoolFlags) (bitIdx : Int) (ops : List PoolOp)
deriving DecidableEq, Repr

/-- What a thread does: outside, switch interrupts or make a call; inside, go on. -/
inductive PoolAct where
  | intr (status : IntrStatus)
  | call (c : PoolCall)
  | go
deriving DecidableEq, Repr

/-- The next step of the call that a thread is in. -/
def poolGo (k : PoolPc) (s : Sched) (d : PoolState) :
    Except Panic (Sched × PoolState × PoolPc × Option (SyncCall PoolFlags)) := do
  match k with
  | .rest [] => pure (s, d, .rest [], none)
  | .rest (.lockAcquire pf :: ops) => pure (s, d, .rest ops, some (.lockAcquire pf))
  | .rest (.lockRelease pf :: ops) => pure (s, d, .rest ops, some (.lockRelease pf))
  | .rest (.palloc pf :: ops) =>
    let bitIdx ← pallocScan false (d.pool pf)
    pure (s, d, .set pf bitIdx ops, none)
  | .rest (.pfree pagePhyAddr :: ops) =>
    let pool ← pfree false d.pool pagePhyAddr
    pure (s, { d with pool, log := .pfree pagePhyAddr :: d.log }, .rest ops, none)
  | .set pf bitIdx ops =>
    let (pagePhyAddr, p) ← pallocSet false (d.pool pf) bitIdx
    pure (s, ⟨Function.update d.pool pf p, .palloc pagePhyAddr :: d.log⟩, .rest ops, none)

def poolClient : Client PoolFlags PoolPc PoolState PoolAct Empty where
  start k := k = .rest []
  guard _ k _ _ a := match a with
    | .intr _ => k = .rest []
    | .call c => k = .rest [] ∧ c.Possible
    | .go => k ≠ .rest []
  exec a _ k s d := match a with
    | .intr status => pure (intrSetStatus status s, d, k, none)
    | .call c => pure (s, d, .rest c.body, none)
    | .go => poolGo k s d
  handler b := nomatch b

end OriginOS
