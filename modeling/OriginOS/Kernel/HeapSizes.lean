import Mathlib.Order.Bounds.Basic
import OriginOS.Kernel.HeapSafety

/-! The sizes that `sys_malloc` lets through: how many pages a large one takes, which descriptor a
small one is served from, and where the page count runs into the assertion of `malloc_page`. -/

namespace OriginOS

open Lib

/-- `page_cnt` of `sys_malloc`, with the 32-bit sums of `DIV_ROUND_UP`. -/
def Mem.pageCnt32 (size : Nat) : Nat := (size + Mem.arenaSize + pgSize - 1) % 2 ^ 32 / pgSize

/-- The stop of `malloc_page` at a page count that it does not take. -/
def pgCntPanic : Panic := ⟨"./kernel/memory.c", 132, "malloc_page", "pg_cnt > 0 && pg_cnt < 3840"⟩

/-- A size above 1024 gets the least number of pages that holds it and the header, computed without
overflow, and `malloc_page` takes that number. -/
structure PagesServe (size : Nat) : Prop where
  noOverflow : size + Mem.arenaSize + pgSize - 1 < 2 ^ 32
  taken : 0 < Mem.pageCnt32 size ∧ Mem.pageCnt32 size < 3840
  least : IsLeast {n | size + Mem.arenaSize ≤ pgSize * n} (Mem.pageCnt32 size)

/-- `block_size` of the descriptor `i`, as the running thread sees it. -/
def MemState.blockSizeOf (s : MemState) (descs i : Nat) : Nat :=
  load32 s.bytes (descs + i * Mem.descSize)

/-- `blocks_per_arena` of the descriptor `i`. -/
def MemState.blocksOf (s : MemState) (descs i : Nat) : Nat :=
  load32 s.bytes (descs + i * Mem.descSize + 4)

/-- A size up to 1024 gets one of the descriptors, with the least blocks that hold it, and the
blocks of an arena fit into a page with the header. -/
def BlockServes (s : MemState) (descs size : Nat) : Prop :=
  ∃ i t, Mem.sysMallocDesc descs size Mem.descCnt 0 s = .ok (i, t) ∧ i < Mem.descCnt ∧
    size ≤ s.blockSizeOf descs i ∧
    (∀ j < Mem.descCnt, size ≤ s.blockSizeOf descs j →
      s.blockSizeOf descs i ≤ s.blockSizeOf descs j) ∧
    Mem.arenaSize + s.blocksOf descs i * s.blockSizeOf descs i ≤ pgSize

section Sizes

variable {pf : PoolFlags} {g g₀ : Frames} {s s₀ : MemState} {A : Arenas} {live : List Alloc}
  {m : Nat → UInt8} {size i j : Nat}

theorem pagesServe_iff (hsize : 1024 < size) (hpool : size < 0xf00000) :
    PagesServe size ↔ size ≤ 15724532 := by
  have hcnt : Mem.pageCnt32 size = (size + 4107) / 4096 := by
    unfold Mem.pageCnt32 Mem.arenaSize pgSize
    omega
  constructor
  · intro h
    have := h.taken.2
    omega
  · intro hle
    refine ⟨by unfold Mem.arenaSize pgSize; omega, by omega, ?_, fun n hn => ?_⟩
    · show size + 12 ≤ 4096 * Mem.pageCnt32 size
      omega
    · have hn : size + 12 ≤ 4096 * n := hn
      omega

theorem blockSize_mono (h : i ≤ j) : blockSize i ≤ blockSize j := by
  unfold blockSize
  exact Nat.mul_le_mul_left 16 (Nat.pow_le_pow_right (by decide) h)

theorem arena_fits (i : Nat) : Mem.arenaSize + blocksPerArena i * blockSize i ≤ pgSize := by
  have := Nat.div_mul_le_self (pgSize - Mem.arenaSize) (blockSize i)
  unfold blocksPerArena
  unfold pgSize Mem.arenaSize at *
  omega

theorem Heap.blockServes (h : Heap pf g₀ s₀ g s A live m) (hsize : size ≤ 1024) :
    BlockServes s (s.descs pf) size := by
  obtain ⟨i, hi, hfit, hleast, hdoes⟩ := does_sysMallocDesc h.stored h.pages hsize 6 rfl
  obtain ⟨mem, hok, -⟩ := hdoes.ok h.flat
  have hseen := h.seen.desc
  refine ⟨i, _, hok, hi, ?_, fun j hj hle => ?_, ?_⟩
  · exact hfit.trans_eq (hseen i hi).1.symm
  · have hle : size ≤ blockSize j := hle.trans_eq (hseen j hj).1
    have hij : i ≤ j := by
      by_contra hlt
      exact absurd hle (Nat.not_le.mpr (hleast j (Nat.zero_le j) (by omega)))
    calc s.blockSizeOf (s.descs pf) i = blockSize i := (hseen i hi).1
      _ ≤ blockSize j := blockSize_mono hij
      _ = s.blockSizeOf (s.descs pf) j := (hseen j hj).1.symm
  · calc Mem.arenaSize + s.blocksOf (s.descs pf) i * s.blockSizeOf (s.descs pf) i
        = Mem.arenaSize + blocksPerArena i * blockSize i := by
          rw [show s.blocksOf (s.descs pf) i = _ from (hseen i hi).2,
            show s.blockSizeOf (s.descs pf) i = _ from (hseen i hi).1]
      _ ≤ pgSize := arena_fits i

theorem Heap.sysMalloc_pgCnt (h : Heap pf g₀ s₀ g s A live m) (hlock : s.lock pf = lockInit)
    (hlow : 15724532 < size) (hhigh : size < 0xf00000) :
    Mem.sysMalloc size s = .error (.panic pgCntPanic) := by
  have hpool := h.flat.inv.laidOut.size pf
  have hcnt : ¬ Mem.divRoundUp (size + Mem.arenaSize) pgSize < 3840 := by
    unfold Mem.divRoundUp Mem.arenaSize pgSize
    omega
  have hdebug : (s.setLock pf ⟨0, some s.runningThread, 1⟩).ndebug = false := h.flat.inv.debug
  unfold Mem.sysMalloc
  rw [Mem.read_bind]
  simp only [h.pages.uses.flag, hpool]
  rw [if_neg (by omega), bind_of_ok (Mem.lockAcquire_ok hlock), if_pos (by omega)]
  refine bind_of_error (bind_of_error (bind_of_error (Mem.assert_stops _ hdebug ?_)))
  exact decide_eq_false fun h => hcnt h.2

end Sizes

/-- In every state of an owner's run, a size that `sys_malloc` lets through is served as it should
be exactly when it stays a page and a header below the pool's size; above that `malloc_page` stops
the kernel. -/
theorem sys_malloc_sizes_iff (pf : PoolFlags) (s₀ : MemState) (hstart : HeapStart pf s₀)
    (w : HeapWorld) (hw : (heapSystem pf s₀).Reachable w) (size : Nat) (hpos : 0 < size)
    (hpool : size < (w.mem.pool pf).poolSize) :
    ((1024 < size → PagesServe size) ∧
        (size ≤ 1024 → BlockServes w.mem (w.mem.descs pf) size) ↔ size ≤ 15724532) ∧
      (15724532 < size → Mem.sysMalloc size w.mem = .error (.panic pgCntPanic)) := by
  obtain ⟨-, hlock, g₀, g, A, m, -, hheap, -⟩ := HeapInv.of_reachable hstart hw
  rw [hheap.flat.inv.laidOut.size pf] at hpool
  refine ⟨?_, fun hlow => hheap.sysMalloc_pgCnt hlock hlow hpool⟩
  rcases Nat.lt_or_ge 1024 size with hlarge | hsmall
  · rw [← pagesServe_iff hlarge hpool]
    exact ⟨fun h => h.1 hlarge, fun h => ⟨fun _ => h, fun hle => absurd hle (by omega)⟩⟩
  · exact iff_of_true ⟨fun hlt => absurd hlt (by omega), fun _ => hheap.blockServes hsmall⟩
      (by omega)

theorem sys_malloc_sizes_first : ∃ s₀ w, (heapSystem .kernel s₀).Reachable w ∧
    w.live = [⟨0xc010000c, 5000⟩] ∧ PagesServe 5000 ∧
      BlockServes w.mem (w.mem.descs .kernel) 100 := by
  obtain ⟨s₀, w, hstart, hw, hlive⟩ := exists_allocation
  have hsize : (w.mem.pool .kernel).poolSize = 0xf00000 := by
    obtain ⟨-, -, g₀, g, A, m, -, hheap, -⟩ := HeapInv.of_reachable hstart.heapStart hw
    exact hheap.flat.inv.laidOut.size .kernel
  have hserve := sys_malloc_sizes_iff .kernel s₀ hstart.heapStart w hw
  refine ⟨s₀, w, hw, hlive, ?_, ?_⟩
  · exact ((hserve 5000 (by decide) (by omega)).1.mpr (by decide)).1 (by decide)
  · exact ((hserve 100 (by decide) (by omega)).1.mpr (by decide)).2 (by decide)

/-- A kernel thread that asks for 15724533 of the pool's 15728640 bytes stops the kernel: with the
header they are 3840 pages. -/
theorem sys_malloc_size_stops : ∃ s₀, KernelHeapStart s₀ ∧
    15724533 < (s₀.pool .kernel).poolSize ∧ Mem.pageCnt32 15724533 = 3840 ∧
    ¬ PagesServe 15724533 ∧ Mem.sysMalloc 15724533 s₀ = .error (.panic pgCntPanic) := by
  obtain ⟨s₀, -, hstart, -⟩ := exists_allocation
  obtain ⟨g, m, -, hheap⟩ := hstart.heapStart.heap
  refine ⟨s₀, hstart, ?_, rfl, ?_, hheap.sysMalloc_pgCnt hstart.heapStart.lock (by decide)
    (by decide)⟩
  · rw [hheap.flat.inv.laidOut.size]
    decide
  · rw [pagesServe_iff (by decide) (by decide)]
    decide

end OriginOS
