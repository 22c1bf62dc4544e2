import Mathlib.Tactic.Simps.Basic
import OriginOS.Kernel.Pool
import OriginOS.Lib.Paging
import OriginOS.Lib.Prog

/-! The page allocation of `kernel/memory.c` and the page directories of `userprog/process.c`, run
by one thread at a time.

Physical memory is a byte memory, and every access goes through the page tables in it that `cr3`
points to, as on the machine. The bitmaps and the locks are objects of their own, beside that
memory. -/

namespace OriginOS

open Lib

/-- Why kernel code does not return: it panics, accesses a page that is not mapped, has to wait for
another thread, or is in a loop that does not end. -/
inductive Stop where
  | panic (p : Panic)
  | pageFault (vaddr : Nat)
  | blocked
  | endless
deriving DecidableEq, Repr

/-- `struct lock` without the waiters of its semaphore; `value` is the semaphore's. -/
structure Lock where
  value : Nat
  holder : Option Nat
  holderRepeatNr : Nat
deriving DecidableEq, Repr

def lockInit : Lock := ⟨1, none, 0⟩

/-- The fields of `struct task_struct` that memory management uses. `pgdir` is 0 for `NULL`, and
`uBlockDescs` is the address of the array. -/
structure Task where
  pgdir : Nat
  userprogVaddr : VirtualAddr
  uBlockDescs : Nat

/-- The state of memory management, with the kernel's globals and the running thread. -/
structure MemState where
  ndebug : Bool
  phys : Nat → UInt8
  cr3 : Nat
  pool : PoolFlags → Pool
  lock : PoolFlags → Lock
  kernelVaddr : VirtualAddr
  kBlockDescs : Nat
  task : Nat → Task
  runningThread : Nat

/-- The range that `pf` stands for: `kernel_vaddr`, or that of the running process. -/
def MemState.vaddr (s : MemState) : PoolFlags → VirtualAddr
  | .kernel => s.kernelVaddr
  | .user => (s.task s.runningThread).userprogVaddr

def MemState.setVaddrBitmap (s : MemState) (pf : PoolFlags) (vaddrBitmap : Bitmap) : MemState :=
  match pf with
  | .kernel => { s with kernelVaddr := { s.kernelVaddr with vaddrBitmap } }
  | .user =>
    let cur := s.task s.runningThread
    let cur := { cur with userprogVaddr := { cur.userprogVaddr with vaddrBitmap } }
    { s with task := Function.update s.task s.runningThread cur }

@[simps]
def MemState.setPhys (s : MemState) (phys : Nat → UInt8) : MemState := { s with phys }

@[simp] theorem MemState.setPhys_setPhys (s : MemState) (mem mem' : Nat → UInt8) :
    (s.setPhys mem).setPhys mem' = s.setPhys mem' := rfl

@[simps]
def MemState.setPool (s : MemState) (pool : PoolFlags → Pool) : MemState := { s with pool }

@[simps]
def MemState.setLock (s : MemState) (pf : PoolFlags) (plock : Lock) : MemState :=
  { s with lock := Function.update s.lock pf plock }

abbrev Mem (α : Type) := Prog MemState Stop α

namespace Mem

def ofPanic {α : Type} (x : Except Panic α) : Mem α := Prog.lift .panic x

def assert (condition : Bool) (p : Panic) : Mem Unit := do
  let s ← Prog.read
  ofPanic (assertUnless s.ndebug condition p)

/-- The translation of a virtual address by the processor. -/
def translate (va : Nat) : Mem Nat := do
  let s ← Prog.read
  match walk s.phys s.cr3 va with
  | some pa => pure pa
  | none => Prog.stop (.pageFault va)

def loadByte (va : Nat) : Mem UInt8 := do
  let pa ← translate va
  let s ← Prog.read
  pure (s.phys pa)

/-- The 32-bit word at `va`. The words of the kernel are aligned, so they lie in one page. -/
def loadWord (va : Nat) : Mem Nat := do
  let pa ← translate va
  let s ← Prog.read
  pure (load32 s.phys pa)

def storeByte (va : Nat) (v : UInt8) : Mem Unit := do
  let pa ← translate va
  let s ← Prog.read
  Prog.write (s.setPhys (Function.update s.phys pa v))

def storeWord (va w : Nat) : Mem Unit := do
  let pa ← translate va
  let s ← Prog.read
  Prog.write (s.setPhys (store32 s.phys pa w))

/-! ### `lib/string.c` -/

def memsetLoop (value : UInt8) : Nat → Nat → Mem Unit
  | 0, _ => pure ()
  | size + 1, dst => do
    storeByte dst value
    memsetLoop value size (dst + 1)

def memset (dst : Nat) (value : UInt8) (size : Nat) : Mem Unit := do
  assert (dst ≠ 0) ⟨"./lib/string.c", 6, "memset", "dst_ != NULL"⟩
  memsetLoop value size dst

def memcpyLoop : Nat → Nat → Nat → Mem Unit
  | 0, _, _ => pure ()
  | size + 1, dst, src => do
    storeByte dst (← loadByte src)
    memcpyLoop size (dst + 1) (src + 1)

def memcpy (dst src size : Nat) : Mem Unit := do
  assert (dst ≠ 0 ∧ src ≠ 0) ⟨"./lib/string.c", 14, "memcpy", "dst_ != NULL && src_ != NULL"⟩
  memcpyLoop size dst src

/-! ### `thread/sync.c`, when no other thread runs -/

def lockAcquire (pf : PoolFlags) : Mem Unit := do
  let s ← Prog.read
  let plock := s.lock pf
  if plock.holder ≠ some s.runningThread then
    -- `sema_down`
    if plock.value = 0 then Prog.stop .blocked
    else
      let value := (plock.value + 2 ^ 8 - 1) % 2 ^ 8
      assert (value = 0) ⟨"./thread/sync.c", 35, "sema_down", "psema->value == 0"⟩
      assert (plock.holderRepeatNr = 0)
        ⟨"./thread/sync.c", 62, "lock_acquire", "plock->holder_repeat_nr == 0"⟩
      Prog.write (s.setLock pf ⟨value, some s.runningThread, 1⟩)
  else
    Prog.write (s.setLock pf
      { plock with holderRepeatNr := (plock.holderRepeatNr + 1) % 2 ^ 32 })

def lockRelease (pf : PoolFlags) : Mem Unit := do
  let s ← Prog.read
  let plock := s.lock pf
  assert (plock.holder = some s.runningThread)
    ⟨"./thread/sync.c", 70, "lock_release", "plock->holder == running_thread()"⟩
  if plock.holderRepeatNr > 1 then
    Prog.write (s.setLock pf { plock with holderRepeatNr := plock.holderRepeatNr - 1 })
  else
    assert (plock.holderRepeatNr = 1)
      ⟨"./thread/sync.c", 75, "lock_release", "plock->holder_repeat_nr == 1"⟩
    -- `sema_up`
    assert (plock.value = 0) ⟨"./thread/sync.c", 45, "sema_up", "psema->value == 0"⟩
    let value := (plock.value + 1) % 2 ^ 8
    assert (value = 1) ⟨"./thread/sync.c", 51, "sema_up", "psema->value == 1"⟩
    Prog.write (s.setLock pf ⟨value, none, 0⟩)

/-! ### Virtual ranges -/

/-- The loops of `vaddr_get` and `vaddr_remove`: `bitmap_set` on `cnt` bits from `bitIdx` on. -/
def bitmapSetLoop (ndebug : Bool) (value : Int) : Nat → Nat → Bitmap → Except Panic Bitmap
  | 0, _, btmp => pure btmp
  | cnt + 1, bitIdx, btmp => do
    bitmapSetLoop ndebug value cnt (bitIdx + 1) (← bitmapSet ndebug btmp bitIdx value)

def vaddrGet (pf : PoolFlags) (pgCnt : Nat) : Mem Nat := do
  let s ← Prog.read
  let bitIdxStart ← ofPanic (bitmapScan s.ndebug (s.vaddr pf).vaddrBitmap pgCnt)
  if bitIdxStart = -1 then pure 0
  else
    let vaddrBitmap ← ofPanic
      (bitmapSetLoop s.ndebug 1 pgCnt bitIdxStart.toNat (s.vaddr pf).vaddrBitmap)
    Prog.write (s.setVaddrBitmap pf vaddrBitmap)
    pure (((s.vaddr pf).vaddrStart + bitIdxStart.toNat * pgSize) % 2 ^ 32)

def vaddrRemove (pf : PoolFlags) (vaddr pgCnt : Nat) : Mem Unit := do
  let s ← Prog.read
  let bitIdxStart := (vaddr + 2 ^ 32 - (s.vaddr pf).vaddrStart) % 2 ^ 32 / pgSize
  let vaddrBitmap ← ofPanic
    (bitmapSetLoop s.ndebug 0 pgCnt bitIdxStart (s.vaddr pf).vaddrBitmap)
  Prog.write (s.setVaddrBitmap pf vaddrBitmap)

/-! ### Page tables -/

def pdeIdx (addr : Nat) : Nat := (addr &&& 0xffc00000) >>> 22

def pteIdx (addr : Nat) : Nat := (addr &&& 0x003ff000) >>> 12

def ptePtr (vaddr : Nat) : Nat := 0xffc00000 + ((vaddr &&& 0xffc00000) >>> 10) + pteIdx vaddr * 4

def pdePtr (vaddr : Nat) : Nat := 0xfffff000 + pdeIdx vaddr * 4

/-- An entry with `PG_US_U | PG_RW_W | PG_P_1`. -/
def pageEntry (phyaddr : Nat) : Nat := phyaddr ||| 0b100 ||| 0b010 ||| 0b001

def palloc (pf : PoolFlags) : Mem Nat := do
  let s ← Prog.read
  let (pagePhyaddr, p) ← ofPanic (OriginOS.palloc s.ndebug (s.pool pf))
  Prog.write (s.setPool (Function.update s.pool pf p))
  pure pagePhyaddr

def pfree (pagePhyAddr : Nat) : Mem Unit := do
  let s ← Prog.read
  let pool ← ofPanic (OriginOS.pfree s.ndebug s.pool pagePhyAddr)
  Prog.write (s.setPool pool)

def pageTableAdd (vaddr pagePhyaddr : Nat) : Mem Unit := do
  let pde := pdePtr vaddr
  let pte := ptePtr vaddr
  if (← loadWord pde) &&& 0x00000001 ≠ 0 then
    assert ((← loadWord pte) &&& 0x00000001 = 0)
      ⟨"./kernel/memory.c", 104, "page_table_add", "!(*pte & 0x00000001)"⟩
    if (← loadWord pte) &&& 0x00000001 = 0 then
      storeWord pte (pageEntry pagePhyaddr)
    else
      -- `PANIC` does not return to the store behind it
      Prog.stop (.panic ⟨"./kernel/memory.c", 109, "page_table_add", "PTE repeat"⟩)
  else
    let pdePhyaddr ← palloc .kernel
    storeWord pde (pageEntry pdePhyaddr)
    memset (pte &&& 0xfffff000) 0 pgSize
    assert ((← loadWord pte) &&& 0x00000001 = 0)
      ⟨"./kernel/memory.c", 117, "page_table_add", "!(*pte & 0x00000001)"⟩
    storeWord pte (pageEntry pagePhyaddr)

def addrV2p (vaddr : Nat) : Mem Nat := do
  let pte ← loadWord (ptePtr vaddr)
  pure ((pte &&& 0xfffff000) + (vaddr &&& 0x00000fff))

/-- `page_table_pte_remove`; `invlpg` does not change memory. -/
def pageTablePteRemove (vaddr : Nat) : Mem Unit := do
  let pte ← loadWord (ptePtr vaddr)
  storeWord (ptePtr vaddr) (pte &&& 0xfffffffe)

/-! ### Pages -/

/-- The loop of `malloc_page`, with `cnt` pages to go. -/
def mallocPageLoop (pf : PoolFlags) (vaddrStart : Nat) : Nat → Nat → Mem Nat
  | 0, _ => pure vaddrStart
  | cnt + 1, vaddr => do
    let pagePhyaddr ← palloc pf
    if pagePhyaddr = 0 then pure 0
    else
      pageTableAdd vaddr pagePhyaddr
      mallocPageLoop pf vaddrStart cnt ((vaddr + pgSize) % 2 ^ 32)

def mallocPage (pf : PoolFlags) (pgCnt : Nat) : Mem Nat := do
  assert (pgCnt > 0 ∧ pgCnt < 3840)
    ⟨"./kernel/memory.c", 132, "malloc_page", "pg_cnt > 0 && pg_cnt < 3840"⟩
  let vaddrStart ← vaddrGet pf pgCnt
  if vaddrStart = 0 then pure 0
  else mallocPageLoop pf vaddrStart pgCnt vaddrStart

def getKernelPages (pgCnt : Nat) : Mem Nat := do
  let vaddr ← mallocPage .kernel pgCnt
  if vaddr ≠ 0 then memset vaddr 0 (pgCnt * pgSize)
  pure vaddr

def getUserPages (pgCnt : Nat) : Mem Nat := do
  lockAcquire .user
  let vaddr ← mallocPage .user pgCnt
  if vaddr ≠ 0 then memset vaddr 0 (pgCnt * pgSize)
  lockRelease .user
  pure vaddr

/-- The branch of `get_a_page` for a range that the running thread may use: the bit of the page. The
byte behind the bitmap, which `bitmap_scan` may look at, is kept with the bitmap; a byte further on
is one of the memory that other things are in. -/
def getAPageBit (pf : PoolFlags) (vaddr line : Nat) : Mem Unit := do
  let s ← Prog.read
  let bitIdx := (vaddr + 2 ^ 32 - (s.vaddr pf).vaddrStart) % 2 ^ 32 / pgSize
  assert (bitIdx > 0) ⟨"./kernel/memory.c", line, "get_a_page", "bit_idx > 0"⟩
  let btmp := (s.vaddr pf).vaddrBitmap
  if bitIdx / 8 ≤ btmp.btmpBytesLen then
    let vaddrBitmap ← ofPanic (bitmapSet s.ndebug btmp bitIdx 1)
    Prog.write (s.setVaddrBitmap pf vaddrBitmap)
  else
    let byte := (btmp.addr + bitIdx / 8) % 2 ^ 32
    storeByte byte ((← loadByte byte) ||| bitmapMask (bitIdx % 8))

def getAPageMap (pf : PoolFlags) (vaddr : Nat) : Mem Nat := do
  let pagePhyaddr ← palloc pf
  if pagePhyaddr = 0 then pure 0
  else
    pageTableAdd vaddr pagePhyaddr
    lockRelease pf
    pure vaddr

def getAPage (pf : PoolFlags) (vaddr : Nat) : Mem Nat := do
  lockAcquire pf
  let s ← Prog.read
  let cur := s.task s.runningThread
  if cur.pgdir ≠ 0 ∧ pf = .user then getAPageBit .user vaddr 189
  else if cur.pgdir = 0 ∧ pf = .kernel then getAPageBit .kernel vaddr 194
  else Prog.stop (.panic ⟨"./kernel/memory.c", 197, "get_a_page",
    "get_a_page:not allowed kernel allocing userspace or user allocing kernelspace by get_a_page"⟩)
  getAPageMap pf vaddr

/-- The loops of `mfree_page`, for frames of the pool `memPool`, with `cnt` pages to go. -/
def mfreePageLoop (memPool : PoolFlags) : Nat → Nat → Mem Unit
  | 0, _ => pure ()
  | cnt + 1, vaddr => do
    let pagePhyAddr ← addrV2p vaddr
    let s ← Prog.read
    match memPool with
    | .user =>
      assert (pagePhyAddr % pgSize = 0 ∧ pagePhyAddr ≥ (s.pool .user).phyAddrStart)
        ⟨"./kernel/memory.c", 450, "mfree_page",
          "(page_phy_addr % PG_SIZE) == 0 && page_phy_addr >= user_pool.phy_addr_start"⟩
    | .kernel =>
      assert (pagePhyAddr % pgSize = 0 ∧ pagePhyAddr ≥ (s.pool .kernel).phyAddrStart ∧
          pagePhyAddr < (s.pool .user).phyAddrStart)
        ⟨"./kernel/memory.c", 462, "mfree_page",
          "(page_phy_addr % PG_SIZE) == 0 && page_phy_addr >= kernel_pool.phy_addr_start && " ++
          "page_phy_addr < user_pool.phy_addr_start"⟩
    pfree pagePhyAddr
    pageTablePteRemove vaddr
    mfreePageLoop memPool cnt ((vaddr + pgSize) % 2 ^ 32)

def mfreePage (pf : PoolFlags) (vaddr pgCnt : Nat) : Mem Unit := do
  assert (pgCnt ≥ 1 ∧ vaddr % pgSize = 0)
    ⟨"./kernel/memory.c", 440, "mfree_page", "pg_cnt >= 1 && vaddr % PG_SIZE == 0"⟩
  let pagePhyAddr ← addrV2p vaddr
  assert (pagePhyAddr % pgSize = 0 ∧ pagePhyAddr ≥ 0x102000)
    ⟨"./kernel/memory.c", 443, "mfree_page",
      "(page_phy_addr % PG_SIZE) == 0 && page_phy_addr >= 0x102000"⟩
  let s ← Prog.read
  mfreePageLoop (pfreePool s.pool pagePhyAddr) pgCnt vaddr
  vaddrRemove pf vaddr pgCnt

/-! ### Page directories -/

def createPageDir : Mem Nat := do
  let pageDirVaddr ← getKernelPages 1
  if pageDirVaddr = 0 then pure 0
  else
    memcpy (pageDirVaddr + 0x300 * 4) (0xfffff000 + 0x300 * 4) 1024
    let newPageDirPhyAddr ← addrV2p pageDirVaddr
    storeWord (pageDirVaddr + 1023 * 4) (pageEntry newPageDirPhyAddr)
    pure pageDirVaddr

def userVaddrStart : Nat := 0x8048000

def divRoundUp (x step : Nat) : Nat := (x + step - 1) / step

/-- `create_user_vaddr_bitmap`. The bytes of the new bitmap and the one behind them are clear, since
`get_kernel_pages` has cleared the pages that they are in. -/
def createUserVaddrBitmap (userProg : Nat) : Mem Unit := do
  let bitmapPgCnt := divRoundUp ((0xc0000000 - userVaddrStart) / pgSize / 8) pgSize
  let bits ← getKernelPages bitmapPgCnt
  -- the `memset` of `bitmap_init`
  assert (bits ≠ 0) ⟨"./lib/string.c", 6, "memset", "dst_ != NULL"⟩
  let s ← Prog.read
  let vaddrBitmap := bitmapInit ⟨(0xc0000000 - userVaddrStart) / pgSize / 8, bits, fun _ => 0⟩
  let thread := { s.task userProg with userprogVaddr := ⟨vaddrBitmap, userVaddrStart⟩ }
  Prog.write { s with task := Function.update s.task userProg thread }

def pageDirActivate (pThread : Nat) : Mem Unit := do
  let s ← Prog.read
  let pgdir := (s.task pThread).pgdir
  let pagePhyAddr ← if pgdir ≠ 0 then addrV2p pgdir else pure 0x100000
  let s ← Prog.read
  Prog.write { s with cr3 := pagePhyAddr }

end Mem

end OriginOS
