import OriginOS.Kernel.Bitmap

/-! The physical memory pools and the kernel's virtual range of `kernel/memory.c`. -/

namespace OriginOS

def pgSize : Nat := 4096

def memBitmapBase : Nat := 0xc009a000

def kHeapStart : Nat := 0xc0100000

inductive PoolFlags where
  | kernel | user
deriving DecidableEq, Repr

structure Pool where
  poolBitmap : Bitmap
  phyAddrStart : Nat
  poolSize : Nat

structure VirtualAddr where
  vaddrBitmap : Bitmap
  vaddrStart : Nat

/-- `mem_pool_init`, where `mem` is the memory from `MEM_BITMAP_BASE` on: the two pools and
`kernel_vaddr`. -/
def memPoolInit (allMem : Nat) (mem : Nat → UInt8) : (PoolFlags → Pool) × VirtualAddr :=
  let pageTableSize := pgSize * (1 + 1 + 254)
  let usedMem := pageTableSize + 0x100000
  let freeMem := (allMem + 2 ^ 32 - usedMem) % 2 ^ 32
  -- the page counts are `uint16_t`
  let allFreePages := freeMem / pgSize % 2 ^ 16
  let kernelFreePages := allFreePages / 2
  let userFreePages := allFreePages - kernelFreePages
  let kbmLength := kernelFreePages / 8
  let ubmLength := userFreePages / 8
  let kpStart := usedMem
  let upStart := kpStart + kernelFreePages * pgSize
  let bitmap := fun length offset =>
    bitmapInit ⟨length, memBitmapBase + offset, fun i => mem (offset + i)⟩
  (fun
    | .kernel => ⟨bitmap kbmLength 0, kpStart, kernelFreePages * pgSize⟩
    | .user => ⟨bitmap ubmLength kbmLength, upStart, userFreePages * pgSize⟩,
    ⟨bitmap kbmLength (kbmLength + ubmLength), kHeapStart⟩)

def pallocScan (ndebug : Bool) (mPool : Pool) : Except Panic Int :=
  bitmapScan ndebug mPool.poolBitmap 1

/-- `palloc` from `bitmap_scan` on: the address of the frame, or 0 for `NULL`. -/
def pallocSet (ndebug : Bool) (mPool : Pool) (bitIdx : Int) : Except Panic (Nat × Pool) := do
  if bitIdx = -1 then pure (0, mPool)
  else
    let poolBitmap ← bitmapSet ndebug mPool.poolBitmap bitIdx.toNat 1
    pure (mPool.phyAddrStart + bitIdx.toNat * pgSize, { mPool with poolBitmap })

/-- `palloc`, when nothing comes between its two parts. -/
def palloc (ndebug : Bool) (mPool : Pool) : Except Panic (Nat × Pool) := do
  pallocSet ndebug mPool (← pallocScan ndebug mPool)

def pfreePool (pool : PoolFlags → Pool) (pagePhyAddr : Nat) : PoolFlags :=
  if pagePhyAddr ≥ (pool .user).phyAddrStart then .user else .kernel

def pfree (ndebug : Bool) (pool : PoolFlags → Pool) (pagePhyAddr : Nat) :
    Except Panic (PoolFlags → Pool) := do
  let memPool := pfreePool pool pagePhyAddr
  let bitIdx := (pagePhyAddr + 2 ^ 32 - (pool memPool).phyAddrStart) % 2 ^ 32 / pgSize
  let poolBitmap ← bitmapSet ndebug (pool memPool).poolBitmap bitIdx 0
  pure (Function.update pool memPool { pool memPool with poolBitmap })

namespace Pool

def frame (p : Pool) (i : Nat) : Nat := p.phyAddrStart + i * pgSize

/-- The number of frames that the bitmap tells of. -/
def frames (p : Pool) : Nat := 8 * p.poolBitmap.btmpBytesLen

/-- The pool with the bit of frame number `i` set to `value`. -/
def put (p : Pool) (i : Nat) (value : Bool) : Pool :=
  { p with poolBitmap := p.poolBitmap.put i value }

theorem bit_update (pool : PoolFlags → Pool) (pf : PoolFlags) (i : Nat) (value : Bool)
    (pf' : PoolFlags) (j : Nat) :
    (Function.update pool pf ((pool pf).put i value) pf').poolBitmap.bit j =
      if pf' = pf ∧ j = i then value else (pool pf').poolBitmap.bit j := by
  by_cases hpf : pf' = pf
  · subst hpf
    rw [Function.update_self, Pool.put, Bitmap.bit_put]
    simp
  · rw [Function.update_of_ne hpf, if_neg fun h => hpf h.1]

end Pool

def PoolFlags.start : PoolFlags → Nat
  | .kernel => 0x200000
  | .user => 0x1100000

/-- The address of frame number `i` of a pool, for 32 MiB. -/
def frameAddr (pf : PoolFlags) (i : Nat) : Nat := pf.start + i * pgSize

structure PoolsLaidOut (pool : PoolFlags → Pool) : Prop where
  start : ∀ pf, (pool pf).phyAddrStart = pf.start
  len : ∀ pf, (pool pf).poolBitmap.btmpBytesLen = 480
  size : ∀ pf, (pool pf).poolSize = 0xf00000

theorem frameAddr_inj {pf pf' : PoolFlags} {i j : Nat} (hi : i < 3840) (hj : j < 3840)
    (heq : frameAddr pf i = frameAddr pf' j) : pf = pf' ∧ i = j := by
  unfold frameAddr pgSize at heq
  cases pf <;> cases pf' <;> simp only [PoolFlags.start] at heq <;>
    simp only [reduceCtorEq, false_and, true_and] <;> omega

theorem memPoolInit_laidOut (mem : Nat → UInt8) : PoolsLaidOut (memPoolInit 0x2000000 mem).1 :=
  ⟨fun pf => by cases pf <;> rfl, fun pf => by cases pf <;> rfl, fun pf => by cases pf <;> rfl⟩

theorem pallocScan_ok {p : Pool} {r : Int} (h : pallocScan false p = .ok r) :
    ∃ i : Nat, r = i ∧ i < p.frames ∧ p.poolBitmap.bit i = false := by
  rcases bitmapScan_ok Nat.one_pos h with ⟨-, hone⟩ | ⟨i, hr, hrun⟩
  · omega
  · exact ⟨i, hr, hrun.one rfl, hrun.clear i (Nat.le_refl i) (Nat.lt_succ_self i)⟩

theorem pallocSet_nat (ndebug : Bool) (p : Pool) (i : Nat) :
    pallocSet ndebug p i = .ok (p.frame i, p.put i true) := by
  unfold pallocSet
  rw [if_neg (by omega), Int.toNat_natCast, bitmapSet_one]
  rfl

theorem palloc_ok {p p' : Pool} {a : Nat} (h : palloc false p = .ok (a, p')) :
    ∃ i, i < p.frames ∧ p.poolBitmap.bit i = false ∧ a = p.frame i ∧ p' = p.put i true := by
  obtain ⟨r, hscan, hset⟩ := bind_eq_ok.mp h
  obtain ⟨i, rfl, hlt, hbit⟩ := pallocScan_ok hscan
  rw [pallocSet_nat] at hset
  obtain ⟨rfl, rfl⟩ := Prod.mk.inj (Except.ok.inj hset)
  exact ⟨i, hlt, hbit, rfl, rfl⟩

theorem palloc_error {p : Pool} {e : Panic} (h : palloc false p = .error e) :
    e.func = "bitmap_scan" := by
  unfold palloc at h
  cases hscan : pallocScan false p with
  | error e' =>
    rw [hscan] at h
    obtain rfl := Except.error.inj h
    rw [bitmapScan_error hscan]
  | ok r =>
    obtain ⟨i, rfl, -⟩ := pallocScan_ok hscan
    rw [hscan, ok_bind, pallocSet_nat] at h
    exact nomatch h

theorem palloc_first {p : Pool} {k : Nat} (ndebug : Bool) (hk : k < p.frames)
    (hset : ∀ j < k, p.poolBitmap.bit j = true) (hclear : p.poolBitmap.bit k = false) :
    palloc ndebug p = .ok (p.frame k, p.put k true) := by
  have hscan : pallocScan ndebug p = .ok (k : Int) :=
    bitmapScan_first ndebug Nat.one_pos hk (by unfold Pool.frames at hk; omega) hset
      fun j hj hj' => by rw [show j = k by omega]; exact hclear
  rw [palloc, hscan, ok_bind, pallocSet_nat]

theorem pfree_of_pfreePool {pool : PoolFlags → Pool} (ndebug : Bool) {pf : PoolFlags} {i : Nat}
    (hpool : pfreePool pool ((pool pf).frame i) = pf) (hi : i < 2 ^ 20) :
    pfree ndebug pool ((pool pf).frame i) =
      .ok (Function.update pool pf ((pool pf).put i false)) := by
  unfold pfree
  dsimp only
  rw [hpool]
  have hidx : ((pool pf).frame i + 2 ^ 32 - (pool pf).phyAddrStart) % 2 ^ 32 / pgSize = i := by
    unfold Pool.frame pgSize
    omega
  rw [hidx, bitmapSet_zero]
  rfl

namespace PoolsLaidOut

variable {pool : PoolFlags → Pool}

theorem frames (h : PoolsLaidOut pool) (pf : PoolFlags) : (pool pf).frames = 3840 := by
  rw [Pool.frames, h.len]

theorem frame (h : PoolsLaidOut pool) (pf : PoolFlags) (i : Nat) :
    (pool pf).frame i = frameAddr pf i := by
  rw [Pool.frame, h.start, frameAddr]

theorem pfreePool_frame (h : PoolsLaidOut pool) (pf : PoolFlags) {i : Nat} (hi : i < 3840) :
    pfreePool pool (frameAddr pf i) = pf := by
  unfold pfreePool frameAddr pgSize
  rw [h.start]
  cases pf <;> simp only [PoolFlags.start]
  · exact if_neg (by omega)
  · exact if_pos (by omega)

theorem pfree_frame (h : PoolsLaidOut pool) (ndebug : Bool) (pf : PoolFlags) {i : Nat}
    (hi : i < 3840) :
    pfree ndebug pool (frameAddr pf i) =
      .ok (Function.update pool pf ((pool pf).put i false)) := by
  have hpool := h.pfreePool_frame pf hi
  rw [← h.frame] at hpool ⊢
  exact pfree_of_pfreePool ndebug hpool (by omega)

theorem put (h : PoolsLaidOut pool) (pf : PoolFlags) (i : Nat) (value : Bool) :
    PoolsLaidOut (Function.update pool pf ((pool pf).put i value)) := by
  have hfield : ∀ {γ : Type} (f : Pool → γ), f ((pool pf).put i value) = f (pool pf) →
      ∀ pf', f (Function.update pool pf ((pool pf).put i value) pf') = f (pool pf') := by
    intro γ f hf pf'
    by_cases heq : pf' = pf
    · rw [heq, Function.update_self, hf]
    · rw [Function.update_of_ne heq]
  refine ⟨fun pf' => ?_, fun pf' => ?_, fun pf' => ?_⟩
  · rw [hfield Pool.phyAddrStart rfl]
    exact h.start pf'
  · rw [hfield (fun p => p.poolBitmap.btmpBytesLen) rfl]
    exact h.len pf'
  · rw [hfield Pool.poolSize rfl]
    exact h.size pf'

end PoolsLaidOut

end OriginOS
