import OriginOS.Kernel.Memory

/-! The heap of `kernel/memory.c`, and the lists of `lib/kernel/list.c` that link its free blocks.

A `struct list_elem` has `prev` at 0 and `next` at 4, a `struct list` its `head` at 0 and its `tail`
at 8. A `struct mem_block_desc` has `block_size` at 0, `blocks_per_arena` at 4 and `free_list` at 8,
and a `struct arena` has `desc` at 0, `cnt` at 4 and `large`, an `int`, at 8. -/

namespace OriginOS

open Lib

namespace Mem

/-- `ASSERT(CONDITION)` for a condition that is computed. -/
def assertM (condition : Mem Bool) (p : Panic) : Mem Unit := do
  let s ← Prog.read
  if s.ndebug then pure ()
  else
    let c ← condition
    assert c p

def field (ptr off : Nat) : Nat := (ptr + off) % 2 ^ 32

/-! ### `lib/kernel/list.c` -/

def listInit (plist : Nat) : Mem Unit := do
  storeWord plist 0
  storeWord (field plist 4) (field plist 8)
  storeWord (field plist 8) plist
  storeWord (field plist 12) 0

def listInsertBefore (before elem : Nat) : Mem Unit := do
  let prev ← loadWord before
  storeWord (field prev 4) elem
  let prev ← loadWord before
  storeWord elem prev
  storeWord (field elem 4) before
  storeWord before elem

def listAppend (plist elem : Nat) : Mem Unit := listInsertBefore (field plist 8) elem

def listRemove (pelem : Nat) : Mem Unit := do
  let prev ← loadWord pelem
  let next ← loadWord (field pelem 4)
  storeWord (field prev 4) next
  let next ← loadWord (field pelem 4)
  let prev ← loadWord pelem
  storeWord next prev

def listPop (plist : Nat) : Mem Nat := do
  let elem ← loadWord (field plist 4)
  listRemove elem
  pure elem

/-- The loop of `elem_find`: one that visits every address goes round for ever. -/
def elemFindLoop (tail objElem : Nat) : Nat → Nat → Mem Bool
  | 0, _ => Prog.stop .endless
  | fuel + 1, elem => do
    if elem = tail then pure false
    else if elem = objElem then pure true
    else
      let next ← loadWord (field elem 4)
      elemFindLoop tail objElem fuel next

def elemFind (plist objElem : Nat) : Mem Bool := do
  let elem ← loadWord (field plist 4)
  elemFindLoop (field plist 8) objElem (2 ^ 32) elem

def listEmpty (plist : Nat) : Mem Bool := do
  let next ← loadWord (field plist 4)
  pure (next = field plist 8)

/-! ### Descriptors and arenas -/

def descCnt : Nat := 7

def descSize : Nat := 24

def arenaSize : Nat := 12

/-- The loop of `block_desc_init`, with `cnt` descriptors to go. -/
def blockDescInitLoop (descArray : Nat) : Nat → Nat → Nat → Mem Unit
  | 0, _, _ => pure ()
  | cnt + 1, descIdx, blockSize => do
    let desc := descArray + descIdx * descSize
    storeWord desc blockSize
    storeWord (field desc 4) ((pgSize - arenaSize) / blockSize)
    listInit (field desc 8)
    blockDescInitLoop descArray cnt (descIdx + 1) (blockSize * 2 % 2 ^ 16)

def blockDescInit (descArray : Nat) : Mem Unit := blockDescInitLoop descArray descCnt 0 16

def arena2block (a idx : Nat) : Mem Nat := do
  let desc ← loadWord a
  let blockSize ← loadWord desc
  pure ((a + arenaSize + idx * blockSize) % 2 ^ 32)

def block2arena (b : Nat) : Nat := b &&& 0xfffff000

/-! ### `sys_malloc` -/

/-- The branch of `sys_malloc` for more than 1024 bytes. -/
def sysMallocLarge (pf : PoolFlags) (size : Nat) : Mem Nat := do
  let pageCnt := divRoundUp (size + arenaSize) pgSize
  let a ← mallocPage pf pageCnt
  if a ≠ 0 then
    memset a 0 (pageCnt * pgSize)
    storeWord a 0
    storeWord (field a 4) pageCnt
    storeWord (field a 8) 1
    pure (a + arenaSize)
  else pure 0

/-- The loop of `sys_malloc` that looks for a descriptor, with `cnt` to go. -/
def sysMallocDesc (descs size : Nat) : Nat → Nat → Mem Nat
  | 0, descIdx => pure descIdx
  | cnt + 1, descIdx => do
    let blockSize ← loadWord (descs + descIdx * descSize)
    if size ≤ blockSize then pure descIdx else sysMallocDesc descs size cnt (descIdx + 1)

/-- The loop of `sys_malloc` that splits a new arena. The index stays below a word, so that the
fuel does not run out. -/
def sysMallocSplit (desc a : Nat) : Nat → Nat → Mem Unit
  | 0, _ => Prog.stop .endless
  | fuel + 1, blockIdx => do
    let blocksPerArena ← loadWord (field desc 4)
    if blockIdx < blocksPerArena then
      let b ← arena2block a blockIdx
      assertM (do
          let desc ← loadWord a
          let found ← elemFind (field desc 8) b
          pure (!found))
        ⟨"./kernel/memory.c", 381, "sys_malloc", "!elem_find(&a->desc->free_list, &b->free_elem)"⟩
      let aDesc ← loadWord a
      listAppend (field aDesc 8) b
      sysMallocSplit desc a fuel (blockIdx + 1)
    else pure ()

/-- The part of `sys_malloc` that makes a new arena when the free list is empty; `false` if there is
no page for it. -/
def sysMallocArena (pf : PoolFlags) (desc : Nat) : Mem Bool := do
  let empty ← listEmpty (field desc 8)
  if empty then
    let a ← mallocPage pf 1
    if a = 0 then pure false
    else
      memset a 0 pgSize
      storeWord a desc
      let blocksPerArena ← loadWord (field desc 4)
      storeWord (field a 4) blocksPerArena
      storeWord (field a 8) 0
      sysMallocSplit desc a (2 ^ 32) 0
      pure true
  else pure true

/-- The end of `sys_malloc`: a block is taken off the free list. -/
def sysMallocBlock (desc : Nat) : Mem Nat := do
  let b ← listPop (field desc 8)
  let blockSize ← loadWord desc
  memset b 0 blockSize
  let a := block2arena b
  let cnt ← loadWord (field a 4)
  storeWord (field a 4) ((cnt + 2 ^ 32 - 1) % 2 ^ 32)
  pure b

/-- The branch of `sys_malloc` for at most 1024 bytes. -/
def sysMallocSmall (pf : PoolFlags) (descs size : Nat) : Mem Nat := do
  let descIdx ← sysMallocDesc descs size descCnt 0
  let desc := descs + descIdx * descSize
  let found ← sysMallocArena pf desc
  if found then sysMallocBlock desc else pure 0

/-- `sys_malloc`. Every branch ends with `lock_release`. -/
def sysMalloc (size : Nat) : Mem Nat := do
  let s ← Prog.read
  let cur := s.task s.runningThread
  let pf := if cur.pgdir = 0 then PoolFlags.kernel else .user
  let descs := if cur.pgdir = 0 then s.kBlockDescs else cur.uBlockDescs
  if ¬ (size > 0 ∧ size < (s.pool pf).poolSize) then pure 0
  else
    lockAcquire pf
    let ptr ← if size > 1024 then sysMallocLarge pf size else sysMallocSmall pf descs size
    lockRelease pf
    pure ptr

/-! ### `sys_free` -/

/-- The loop of `sys_free` that takes the blocks of an arena off the free list. -/
def sysFreeLoop (a : Nat) : Nat → Nat → Mem Unit
  | 0, _ => Prog.stop .endless
  | fuel + 1, blockIdx => do
    let desc ← loadWord a
    let blocksPerArena ← loadWord (field desc 4)
    if blockIdx < blocksPerArena then
      let b ← arena2block a blockIdx
      assertM (do
          let desc ← loadWord a
          elemFind (field desc 8) b)
        ⟨"./kernel/memory.c", 500, "sys_free", "elem_find(&a->desc->free_list, &b->free_elem)"⟩
      listRemove b
      sysFreeLoop a fuel (blockIdx + 1)
    else pure ()

/-- The branch of `sys_free` for a block of a small arena. -/
def sysFreeSmall (pf : PoolFlags) (a b : Nat) : Mem Unit := do
  let desc ← loadWord a
  listAppend (field desc 8) b
  let cnt ← loadWord (field a 4)
  let cnt := (cnt + 1) % 2 ^ 32
  storeWord (field a 4) cnt
  let desc ← loadWord a
  let blocksPerArena ← loadWord (field desc 4)
  if cnt = blocksPerArena then
    sysFreeLoop a (2 ^ 32) 0
    mfreePage pf a 1

def sysFree (ptr : Nat) : Mem Unit := do
  assert (ptr ≠ 0) ⟨"./kernel/memory.c", 472, "sys_free", "ptr != NULL"⟩
  if ptr ≠ 0 then
    let s ← Prog.read
    let pgdir := (s.task s.runningThread).pgdir
    let pf := if pgdir = 0 then PoolFlags.kernel else .user
    if pgdir = 0 then
      assert (ptr ≥ kHeapStart)
        ⟨"./kernel/memory.c", 478, "sys_free", "(uint32_t)ptr >= K_HEAP_START"⟩
    lockAcquire pf
    let a := block2arena ptr
    let large ← loadWord (field a 8)
    assert (large = 0 ∨ large = 1)
      ⟨"./kernel/memory.c", 490, "sys_free", "a->large == 0 || a->large == 1"⟩
    let desc ← loadWord a
    if desc = 0 ∧ large = 1 then
      let cnt ← loadWord (field a 4)
      mfreePage pf a cnt
    else
      sysFreeSmall pf a ptr
    lockRelease pf

end Mem

end OriginOS
