import OriginOS.Kernel.Exhaustion

/-! How `mem_pool_init` lays out the pools and the bitmaps, for any amount of memory: where they
are, and that `palloc` and `pfree` stay inside a pool. -/

namespace OriginOS

def Pool.Holds (p : Pool) (a : Nat) : Prop := p.phyAddrStart ≤ a ∧ a < p.phyAddrStart + p.poolSize

def Bitmap.Occupies (btmp : Bitmap) (a : Nat) : Prop :=
  btmp.addr ≤ a ∧ a < btmp.addr + btmp.btmpBytesLen

def Pool.shape (p : Pool) : Nat × Nat × Nat × Nat :=
  (p.phyAddrStart, p.poolSize, p.poolBitmap.btmpBytesLen, p.poolBitmap.addr)

/-- The pools are disjoint ranges of frames, one behind the other, between the page tables and the
end of memory, with all the frames that the bitmaps tell of; the bitmaps are apart and in front of
the main thread's page; and the kernel's heap ends below the window of the page tables. -/
structure SafeLayout (allMem : Nat) (pool : PoolFlags → Pool) (kernelVaddr : VirtualAddr) :
    Prop where
  aligned : ∀ pf, (pool pf).phyAddrStart % pgSize = 0 ∧ (pool pf).poolSize % pgSize = 0
  inside : ∀ pf a, (pool pf).Holds a → 0x200000 ≤ a ∧ a < allMem
  next : (pool .user).phyAddrStart = (pool .kernel).phyAddrStart + (pool .kernel).poolSize
  apart : ∀ a, ¬ ((pool .kernel).Holds a ∧ (pool .user).Holds a)
  frames : ∀ pf, ∀ i < (pool pf).frames, ∀ k < pgSize, (pool pf).Holds ((pool pf).frame i + k)
  bitmaps : ∀ btmp ∈ [(pool .kernel).poolBitmap, (pool .user).poolBitmap, kernelVaddr.vaddrBitmap],
    ∀ a, btmp.Occupies a → 0xc009a000 ≤ a ∧ a < 0xc009e000
  bitmapsApart : [(pool .kernel).poolBitmap, (pool .user).poolBitmap,
    kernelVaddr.vaddrBitmap].Pairwise fun b c => ∀ a, ¬ (b.Occupies a ∧ c.Occupies a)
  heap : kernelVaddr.vaddrStart + pgSize * (8 * kernelVaddr.vaddrBitmap.btmpBytesLen) ≤ 0xffc00000

theorem palloc_frame {ndebug : Bool} {p p' : Pool} {a : Nat} (h : palloc ndebug p = .ok (a, p')) :
    a = 0 ∧ p' = p ∨ ∃ i < p.frames, a = p.frame i ∧ p' = p.put i true := by
  by_cases hany : p.poolBitmap.AnyClear
  · obtain ⟨i, hi⟩ := hany.firstClear
    rw [palloc_first ndebug hi.lt hi.set hi.clear] at h
    obtain ⟨rfl, rfl⟩ := Prod.mk.inj (Except.ok.inj h)
    exact .inr ⟨i, hi.lt, rfl, rfl⟩
  · cases ndebug with
    | false =>
      obtain ⟨i, hi, hbit, -⟩ := palloc_ok h
      exact absurd ⟨i, hi, hbit⟩ hany
    | true =>
      unfold palloc pallocScan at h
      rw [bitmapScan_full (Bitmap.not_anyClear.mp hany)] at h
      obtain ⟨rfl, rfl⟩ := Prod.mk.inj (Except.ok.inj h)
      exact .inl ⟨rfl, rfl⟩

section Layout

variable {allMem : Nat}

/-- The pages that `mem_pool_init` counts: a page count beyond 16 bits wraps around. -/
def freePages (allMem : Nat) : Nat := (allMem - 0x200000) / pgSize % 2 ^ 16

theorem freeMem_eq (hmin : 0x200000 ≤ allMem) (hmax : allMem < 2 ^ 32) :
    (allMem + 2 ^ 32 - (pgSize * (1 + 1 + 254) + 0x100000)) % 2 ^ 32 = allMem - 0x200000 := by
  unfold pgSize
  omega

theorem memPoolInit_shape (mem : Nat → UInt8) (hmin : 0x200000 ≤ allMem) (hmax : allMem < 2 ^ 32) :
    ((memPoolInit allMem mem).1 .kernel).shape =
      (0x200000, freePages allMem / 2 * pgSize, freePages allMem / 2 / 8, 0xc009a000) ∧
    ((memPoolInit allMem mem).1 .user).shape =
      (0x200000 + freePages allMem / 2 * pgSize,
        (freePages allMem - freePages allMem / 2) * pgSize,
        (freePages allMem - freePages allMem / 2) / 8, 0xc009a000 + freePages allMem / 2 / 8) := by
  unfold memPoolInit
  dsimp only
  rw [freeMem_eq hmin hmax]
  exact ⟨rfl, rfl⟩

theorem memPoolInit_vaddr (mem : Nat → UInt8) (hmin : 0x200000 ≤ allMem) (hmax : allMem < 2 ^ 32) :
    (memPoolInit allMem mem).2.vaddrBitmap.btmpBytesLen = freePages allMem / 2 / 8 ∧
    (memPoolInit allMem mem).2.vaddrBitmap.addr = 0xc009a000 +
      (freePages allMem / 2 / 8 + (freePages allMem - freePages allMem / 2) / 8) ∧
    (memPoolInit allMem mem).2.vaddrStart = 0xc0100000 := by
  unfold memPoolInit
  dsimp only
  rw [freeMem_eq hmin hmax]
  exact ⟨rfl, rfl, rfl⟩

theorem freePages_le (hmin : 0x200000 ≤ allMem) :
    freePages allMem < 2 ^ 16 ∧ 0x200000 + freePages allMem * pgSize ≤ allMem := by
  unfold freePages pgSize
  omega

theorem safeLayout_of_shape {pool : PoolFlags → Pool} {kernelVaddr : VirtualAddr}
    (hmin : 0x200000 ≤ allMem)
    (hkernel : (pool .kernel).shape =
      (0x200000, freePages allMem / 2 * pgSize, freePages allMem / 2 / 8, 0xc009a000))
    (huser : (pool .user).shape =
      (0x200000 + freePages allMem / 2 * pgSize,
        (freePages allMem - freePages allMem / 2) * pgSize,
        (freePages allMem - freePages allMem / 2) / 8, 0xc009a000 + freePages allMem / 2 / 8))
    (hlen : kernelVaddr.vaddrBitmap.btmpBytesLen = freePages allMem / 2 / 8)
    (haddr : kernelVaddr.vaddrBitmap.addr = 0xc009a000 +
      (freePages allMem / 2 / 8 + (freePages allMem - freePages allMem / 2) / 8))
    (hstart : kernelVaddr.vaddrStart = 0xc0100000) : SafeLayout allMem pool kernelVaddr := by
  obtain ⟨hlt, hle⟩ := freePages_le hmin
  simp only [Pool.shape, Prod.mk.injEq] at hkernel huser
  obtain ⟨hkstart, hksize, hklen, hkaddr⟩ := hkernel
  obtain ⟨hustart, husize, hulen, huaddr⟩ := huser
  generalize freePages allMem = n at *
  unfold pgSize at *
  refine ⟨fun pf => ?_, fun pf a ha => ?_, ?_, fun a ha => ?_, fun pf i hi k hk => ?_,
    fun btmp hmem a ha => ?_, ?_, ?_⟩
  · unfold pgSize
    cases pf <;> omega
  · unfold Pool.Holds at ha
    cases pf <;> omega
  · omega
  · unfold Pool.Holds at ha
    omega
  · unfold Pool.Holds Pool.frame pgSize
    unfold Pool.frames at hi
    unfold pgSize at hk
    cases pf <;> omega
  · unfold Bitmap.Occupies at ha
    simp only [List.mem_cons, List.not_mem_nil, or_false] at hmem
    rcases hmem with rfl | rfl | rfl <;> omega
  · simp only [List.pairwise_cons, List.mem_cons, List.not_mem_nil, or_false, Bitmap.Occupies]
    refine ⟨?_, ?_, fun _ h => absurd h id, List.Pairwise.nil⟩
    · rintro c (rfl | rfl) a ha <;> omega
    · rintro c rfl a ha
      omega
  · unfold pgSize
    omega

theorem SafeLayout.pfreePool_frame {pool : PoolFlags → Pool} {kernelVaddr : VirtualAddr}
    (h : SafeLayout allMem pool kernelVaddr) (pf : PoolFlags) {i : Nat}
    (hi : i < (pool pf).frames) : pfreePool pool ((pool pf).frame i) = pf := by
  have hholds := h.frames pf i hi 0 (by decide)
  unfold pfreePool
  cases pf with
  | kernel =>
    refine if_neg (Nat.not_le.mpr ?_)
    rw [h.next]
    exact hholds.2
  | user => exact if_pos hholds.1

end Layout

/-- For every amount of memory from 2 MiB on, `mem_pool_init` lays out the pools and the bitmaps
safely; and from then on `palloc` hands out frames of the pool, and `pfree` of such a frame clears
its bit. -/
theorem mem_pool_init_safe (allMem : Nat) (mem : Nat → UInt8) (hmin : 0x200000 ≤ allMem)
    (hmax : allMem < 2 ^ 32) :
    SafeLayout allMem (memPoolInit allMem mem).1 (memPoolInit allMem mem).2 ∧
    ∀ pool : PoolFlags → Pool, (∀ pf, (pool pf).shape = ((memPoolInit allMem mem).1 pf).shape) →
      ∀ ndebug pf, (∀ a p', palloc ndebug (pool pf) = .ok (a, p') → a = 0 ∧ p' = pool pf ∨
          ∃ i < (pool pf).frames, a = (pool pf).frame i ∧ p' = (pool pf).put i true) ∧
        ∀ i < (pool pf).frames, (pool pf).Holds ((pool pf).frame i) ∧
          pfree ndebug pool ((pool pf).frame i) =
            .ok (Function.update pool pf ((pool pf).put i false)) := by
  have hshape := memPoolInit_shape mem hmin hmax
  have hvaddr := memPoolInit_vaddr mem hmin hmax
  have hlay : ∀ pool : PoolFlags → Pool,
      (∀ pf, (pool pf).shape = ((memPoolInit allMem mem).1 pf).shape) →
      SafeLayout allMem pool (memPoolInit allMem mem).2 := fun pool hpool =>
    safeLayout_of_shape hmin ((hpool .kernel).trans hshape.1) ((hpool .user).trans hshape.2)
      hvaddr.1 hvaddr.2.1 hvaddr.2.2
  refine ⟨hlay _ fun _ => rfl, fun pool hpool ndebug pf => ⟨fun a p' h => palloc_frame h, ?_⟩⟩
  intro i hi
  have hsafe := hlay pool hpool
  have hholds := hsafe.frames pf i hi 0 (by decide)
  refine ⟨hholds, pfree_of_pfreePool ndebug (hsafe.pfreePool_frame pf hi) ?_⟩
  have hlt := (hsafe.inside pf _ hholds).2
  unfold Pool.frame pgSize at hlt
  omega

/-- With 4 GiB less one page, the page count of 1048063 wraps around to 65023. -/
theorem mem_pool_init_safe_wraps :
    SafeLayout 0xfffff000 (memPoolInit 0xfffff000 fun _ => 0xff).1
      (memPoolInit 0xfffff000 fun _ => 0xff).2 ∧
    ((memPoolInit 0xfffff000 fun _ => 0xff).1 .user).shape =
      (0x200000 + 32511 * 4096, 32512 * 4096, 4064, 0xc009a000 + 4063) := by
  refine ⟨(mem_pool_init_safe 0xfffff000 _ (by decide) (by decide)).1, ?_⟩
  rw [(memPoolInit_shape _ (by decide) (by decide)).2]
  rfl

end OriginOS
