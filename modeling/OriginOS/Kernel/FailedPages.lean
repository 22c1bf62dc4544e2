import OriginOS.Kernel.Unchanged

/-! What `malloc_page` leaves behind when it runs out of frames. It neither gives the virtual pages
back that `vaddr_get` took, nor notices that `page_table_add` found no frame for a page table. -/

namespace OriginOS

open Lib

namespace Mem

/-- `page_table_add` finds no page table for `vaddr`, and no frame for a new one; `t` is the state
that it goes on in. -/
def TableMissing (vaddr : Nat) (s t : MemState) : Prop :=
  ∃ pde, loadWord (pdePtr vaddr) s = .ok (pde, s) ∧ pde &&& 0x00000001 = 0 ∧
    palloc .kernel s = .ok (0, t)

/-- One of the calls of `palloc` in the loop of `malloc_page` returns `NULL`: that for a page, or
the one in `page_table_add`. -/
def LoopRunsOut (pf : PoolFlags) : Nat → Nat → MemState → Prop
  | 0, _, _ => False
  | cnt + 1, vaddr, s => ∃ pagePhyaddr s₁, palloc pf s = .ok (pagePhyaddr, s₁) ∧
      (pagePhyaddr = 0 ∨ (∃ t, TableMissing vaddr s₁ t) ∨
        ∃ s₂, pageTableAdd vaddr pagePhyaddr s₁ = .ok ((), s₂) ∧
          LoopRunsOut pf cnt ((vaddr + pgSize) % 2 ^ 32) s₂)

/-- `malloc_page` finds virtual pages and runs out of frames for them. -/
def RunsOut (pf : PoolFlags) (pgCnt : Nat) (s : MemState) : Prop :=
  ∃ vaddr s₁, vaddrGet pf pgCnt s = .ok (vaddr, s₁) ∧ vaddr ≠ 0 ∧ LoopRunsOut pf pgCnt vaddr s₁

/-- `malloc_page` returns `NULL`, and the pool bitmaps, the virtual bitmap and the entries of the
page directory and the page tables are as before. -/
def LeavesNoTrace (pf : PoolFlags) (pgCnt : Nat) (s : MemState) : Prop :=
  ∃ t, mallocPage pf pgCnt s = .ok (0, t) ∧
    (∀ q, (t.pool q).poolBitmap = (s.pool q).poolBitmap) ∧
    (t.vaddr pf).vaddrBitmap = (s.vaddr pf).vaddrBitmap ∧
    (∀ i < 1024, pde t.phys t.cr3 i = pde s.phys s.cr3 i) ∧
    ∀ vp < 1024 * 1024, ∀ e, entry s.phys s.cr3 vp = some e → load32 t.phys e = load32 s.phys e

/-! ### What leaves the virtual ranges alone -/

/-- A program that does not touch the virtual ranges. -/
def KeepsRanges {α : Type} (x : Mem α) : Prop :=
  ∀ s, Ensures x (fun _ => True) (fun _ t => t.vaddr = s.vaddr) s

theorem offFrames_vaddr : OffFrames MemState.vaddr where
  phys _ _ := rfl
  pool _ _ := rfl

theorem KeepsRanges.mallocPageLoop (pf : PoolFlags) (vaddrStart cnt vaddr : Nat) :
    KeepsRanges (Mem.mallocPageLoop pf vaddrStart cnt vaddr) :=
  offFrames_vaddr.mallocPageLoop pf vaddrStart cnt vaddr

end Mem
/-! ### The virtual pages -/

theorem bitmapScan_found {ndebug : Bool} {btmp : Bitmap} {cnt : Nat} {r : Int} (hcnt : 0 < cnt)
    (h : bitmapScan ndebug btmp cnt = .ok r) : r = -1 ∨ ∃ i : Nat, r = i ∧ btmp.ClearRun cnt i := by
  have hdebug : r = -1 ∨ bitmapScan false btmp cnt = .ok r := by
    cases ndebug with
    | false => exact .inr h
    | true =>
      by_cases hfull : bitmapScanByte btmp btmp.btmpBytesLen 0 = btmp.btmpBytesLen
      · rw [bitmapScan, assertUnless_true, ok_bind, if_pos hfull] at h
        exact .inl (Except.ok.inj h).symm
      · have hle := (bitmapScanByte_spec btmp btmp.btmpBytesLen 0 (Nat.zero_add _)).2.1
        rw [bitmapScan, assertUnless_true, ok_bind] at h
        refine .inr ?_
        rw [bitmapScan, assertUnless_false, assert_of (decide_eq_true (by omega)), ok_bind]
        exact h
  rcases hdebug with hnone | hscan
  · exact .inl hnone
  · rcases bitmapScan_ok hcnt hscan with ⟨hnone, -⟩ | hfound
    · exact .inl hnone
    · exact .inr hfound

namespace Mem

theorem vaddrGet_takes {pf : PoolFlags} {n v : Nat} {s t : MemState} (hn : 0 < n)
    (h : vaddrGet pf n s = .ok (v, t)) (hv : v ≠ 0) :
    ∃ i, (s.vaddr pf).vaddrBitmap.bit i = false ∧ (t.vaddr pf).vaddrBitmap.bit i = true := by
  unfold vaddrGet at h
  rw [read_bind] at h
  cases hscan : bitmapScan s.ndebug (s.vaddr pf).vaddrBitmap n with
  | error p =>
    rw [hscan] at h
    exact nomatch h
  | ok r =>
    rw [hscan, bind_of_ok ofPanic_ok] at h
    rcases bitmapScan_found hn hscan with rfl | ⟨i, rfl, hrun⟩
    · rw [if_pos rfl] at h
      exact absurd (congrArg Prod.fst (Except.ok.inj h)).symm hv
    · rw [if_neg (by omega), Int.toNat_natCast, bitmapSetLoop_one, bind_of_ok ofPanic_ok,
        write_bind] at h
      obtain rfl : s.setVaddrBitmap pf _ = t := congrArg Prod.snd (Except.ok.inj h)
      refine ⟨i, hrun.clear i (Nat.le_refl i) (by omega), ?_⟩
      rw [vaddr_setVaddrBitmap, Bitmap.bit_putRun, if_pos ⟨Nat.le_refl i, by omega⟩]

theorem assert_state {c : Bool} {p : Panic} {s t : MemState} {u : Unit}
    (h : assert c p s = .ok (u, t)) : t = s := by
  unfold assert at h
  rw [read_bind] at h
  cases hc : assertUnless s.ndebug c p with
  | error e =>
    rw [hc] at h
    exact nomatch h
  | ok v =>
    rw [hc] at h
    exact (congrArg Prod.snd (Except.ok.inj h)).symm

theorem mallocPage_eq {pf : PoolFlags} {n v : Nat} {s s₁ : MemState} {r : Nat × MemState}
    (hget : vaddrGet pf n s = .ok (v, s₁)) (hv : v ≠ 0) (h : mallocPage pf n s = .ok r) :
    mallocPageLoop pf v n v s₁ = .ok r := by
  unfold mallocPage at h
  rw [bind_apply] at h
  obtain ⟨⟨u, s'⟩, hassert, hrest⟩ := exists_of_bind_eq_ok h
  obtain rfl := assert_state hassert
  change (vaddrGet pf n >>= _) s' = .ok r at hrest
  rw [bind_of_ok hget, if_neg hv] at hrest
  exact hrest

end Mem

/-- Whenever `malloc_page` runs out of frames, for a page or for a page table, it does not return
`NULL` with everything as before: the virtual pages that it took stay taken. -/
theorem malloc_page_leaves_trace (pf : PoolFlags) (pgCnt : Nat) (s : MemState)
    (h : Mem.RunsOut pf pgCnt s) : ¬ Mem.LeavesNoTrace pf pgCnt s := by
  obtain ⟨v, s₁, hget, hv, hloop⟩ := h
  rintro ⟨t, hcall, -, hbitmap, -⟩
  have hpos : 0 < pgCnt := by
    rcases Nat.eq_zero_or_pos pgCnt with rfl | hpos
    · exact absurd hloop id
    · exact hpos
  obtain ⟨i, hclear, hset⟩ := Mem.vaddrGet_takes hpos hget hv
  have hkeeps := (Mem.KeepsRanges.mallocPageLoop pf v pgCnt v s₁).ok
    (Mem.mallocPage_eq hget hv hcall)
  rw [← hkeeps, hbitmap, hclear] at hset
  exact Bool.noConfusion hset
/-! ### The page table that is not there -/

namespace Mem

variable {s t : MemState} {vaddr : Nat}

/-- Without a frame for the page table `page_table_add` takes frame 0: it clears that frame and
returns as if nothing had happened. -/
theorem pageTableAdd_missing (hself : SelfMapped s.phys s.cr3) (hdir : s.cr3 % 4096 = 0)
    (hcr3 : 4096 ≤ s.cr3) (hv : vaddr < 0xffc00000) (page : Nat) (hmiss : TableMissing vaddr s s) :
    pageTableAdd vaddr page s = .ok ((), s.setPhys (store32
      (fill (store32 s.phys (s.cr3 + 4 * (vaddr / 4096 / 1024)) 7) 0 4096 0)
      (4 * (vaddr / 4096 % 1024)) (pageEntry page))) := by
  obtain ⟨w, hload, hw, hpalloc⟩ := hmiss
  set i := vaddr / 4096 / 1024 with hi
  have hi' : i < 1023 := by omega
  -- every memory with the directory as it is after the store to the entry
  have hmem : ∀ mem : Nat → UInt8, (∀ a, a < 0 ∨ 0 + 4096 ≤ a →
      mem a = store32 s.phys (s.cr3 + 4 * i) 7 a) → SelfMapped mem s.cr3 ∧ pde mem s.cr3 i = 7 := by
    intro mem hagree
    have hpde : ∀ k, pde mem s.cr3 k = pde (store32 s.phys (s.cr3 + 4 * i) 7) s.cr3 k :=
      fun k => load32_congr fun b hb _ => hagree b (.inr (by omega))
    have hown : pde mem s.cr3 1023 = pde s.phys s.cr3 1023 := by
      rw [hpde]
      exact load32_store32_of_disjoint (.inr (by omega))
    refine ⟨⟨hown ▸ hself.present, hown ▸ hself.frame⟩, ?_⟩
    rw [hpde]
    exact load32_store32_self (by decide)
  have hwalk : ∀ mem : Nat → UInt8, (∀ a, a < 0 ∨ 0 + 4096 ≤ a →
      mem a = store32 s.phys (s.cr3 + 4 * i) 7 a) → ∀ k < 4096,
      walk mem s.cr3 (0xffc00000 + 4096 * i + k) = some (0 + k) := by
    intro mem hagree k hk
    obtain ⟨hself', hentry⟩ := hmem mem hagree
    have htable := hself'.walk_table (show i < 1024 by omega) (by rw [hentry]; decide) hk
    rw [htable, hentry]
    rfl
  have hpte := ptePtr_eq (show vaddr < 2 ^ 32 by omega)
  have hmask : ptePtr vaddr &&& 0xfffff000 = 0xffc00000 + 4096 * i := by
    rw [hpte, and_page_mask (by omega)]
    omega
  unfold pageTableAdd
  rw [bind_of_ok hload, if_neg (by rw [hw]; decide), bind_of_ok hpalloc,
    bind_of_ok (storeWord_ok (walk_pdePtr hself (by omega)) _), hmask,
    show pageEntry 0 = 7 from rfl]
  set s₁ := s.setPhys (store32 s.phys (s.cr3 + 4 * i) 7) with hs₁
  have hclear : memset (0xffc00000 + 4096 * i) 0 pgSize s₁ =
      .ok ((), s₁.setPhys (fill s₁.phys 0 4096 0)) := by
    unfold memset
    rw [bind_of_ok (assert_ok _ (decide_eq_true (by omega)))]
    exact memsetLoop_ok 0 fun k hk mem hagree => hwalk mem hagree k hk
  rw [bind_of_ok hclear]
  have hslot : ∀ mem : Nat → UInt8, (∀ a, a < 0 ∨ 0 + 4096 ≤ a →
      mem a = store32 s.phys (s.cr3 + 4 * i) 7 a) →
      walk mem s.cr3 (ptePtr vaddr) = some (4 * (vaddr / 4096 % 1024)) := by
    intro mem hagree
    rw [hpte, hwalk mem hagree _ (by omega), Nat.zero_add]
  have hfill : ∀ a, a < 0 ∨ 0 + 4096 ≤ a → fill s₁.phys 0 4096 0 a = s₁.phys a :=
    fun a ha => fill_apply_of_not ha
  have hzero : load32 (fill s₁.phys 0 4096 0) (4 * (vaddr / 4096 % 1024)) = 0 :=
    load32_fill_zero ⟨Nat.zero_le _, by omega⟩
  set s₂ := s₁.setPhys (fill s₁.phys 0 4096 0)
  have hwalk₂ : walk s₂.phys s₂.cr3 (ptePtr vaddr) = some (4 * (vaddr / 4096 % 1024)) :=
    hslot _ hfill
  rw [bind_of_ok (loadWord_ok hwalk₂), show load32 s₂.phys _ = 0 from hzero,
    bind_of_ok (assert_ok _ (by decide)), storeWord_ok hwalk₂]
  rfl

end Mem
/-- A memory with a page directory in frame 1 that maps only itself, a full kernel pool, and the
given byte for the bitmap of the user pool. -/
def fullMemory (userBits : UInt8) : MemState where
  ndebug := true
  phys := store32 (fun _ => 0) 0x1ffc 0x1007
  cr3 := 0x1000
  pool
    | .kernel => ⟨⟨1, 0xc009a000, fun _ => 0xff⟩, 0x200000, 0x8000⟩
    | .user => ⟨⟨1, 0xc009a001, fun _ => userBits⟩, 0x208000, 0x8000⟩
  lock _ := lockInit
  kernelVaddr := ⟨⟨1, 0xc009a002, fun _ => 0⟩, 0xc0100000⟩
  kBlockDescs := 0xc0003000
  task _ := ⟨0xc0101000, ⟨⟨1, 0xc0102000, fun _ => 0⟩, 0x8048000⟩, 0⟩
  runningThread := 0xc009e000

/-- The first page of a kernel that has no frames left. -/
theorem malloc_page_leaves_trace_kernel :
    Mem.RunsOut .kernel 1 (fullMemory 0xff) ∧ ¬ Mem.LeavesNoTrace .kernel 1 (fullMemory 0xff) := by
  have hruns : Mem.RunsOut .kernel 1 (fullMemory 0xff) :=
    ⟨0xc0100000, _, rfl, by decide, 0, _, rfl, .inl rfl⟩
  exact ⟨hruns, malloc_page_leaves_trace .kernel 1 _ hruns⟩

theorem fullMemory_selfMapped (userBits : UInt8) :
    SelfMapped (fullMemory userBits).phys (fullMemory userBits).cr3 := by
  have hpde : pde (fullMemory userBits).phys (fullMemory userBits).cr3 1023 = 0x1007 :=
    load32_store32_self (a := 0x1ffc) (w := 0x1007) (by decide)
  exact ⟨by rw [hpde]; decide, by rw [hpde]; rfl⟩

/-- A process asks for a page when there is a frame for the page and none for its page table: the
entry of the page directory leads to frame 0, and the page is returned. -/
theorem malloc_page_takes_frame_zero : ∃ t,
    Mem.RunsOut .user 1 (fullMemory 0) ∧
    Mem.mallocPage .user 1 (fullMemory 0) = .ok (0x8048000, t) ∧
    pde (fullMemory 0).phys (fullMemory 0).cr3 32 = 0 ∧ pde t.phys t.cr3 32 = 7 := by
  obtain ⟨s₁, hget, hpage⟩ : ∃ s₁, Mem.vaddrGet .user 1 (fullMemory 0) = .ok (0x8048000, s₁) ∧
      ∃ s₂, Mem.palloc .user s₁ = .ok (0x208000, s₂) ∧ s₂.phys = (fullMemory 0).phys ∧
        s₂.cr3 = 0x1000 ∧ Mem.palloc .kernel s₂ =
          .ok (0, s₂.setPool (Function.update s₂.pool .kernel (s₂.pool .kernel))) :=
    ⟨_, rfl, _, rfl, rfl, rfl, rfl⟩
  obtain ⟨s₂, halloc, hphys, hcr3, hnone⟩ := hpage
  rw [Function.update_eq_self] at hnone
  have hzero : pde (fullMemory 0).phys (fullMemory 0).cr3 32 = 0 := by
    refine (load32_store32_of_disjoint (.inl (by decide))).trans ?_
    rfl
  have hself : SelfMapped s₂.phys s₂.cr3 := by
    rw [hphys, hcr3]
    exact fullMemory_selfMapped 0
  have hmiss : Mem.TableMissing 0x8048000 s₂ s₂ := by
    refine ⟨_, Mem.loadWord_ok (Mem.walk_pdePtr hself (by decide)), ?_, hnone⟩
    rw [hphys, hcr3]
    exact congrArg (· &&& 1) hzero
  obtain ⟨t, hadd, ht⟩ : ∃ t, Mem.pageTableAdd 0x8048000 0x208000 s₂ = .ok ((), t) ∧
      pde t.phys t.cr3 32 = 7 := by
    refine ⟨_, Mem.pageTableAdd_missing hself (by rw [hcr3]) (by rw [hcr3]) (by decide) _ hmiss, ?_⟩
    show load32 (store32 (fill (store32 s₂.phys (s₂.cr3 + 4 * 32) 7) 0 4096 0) (4 * 72) _)
      (s₂.cr3 + 4 * 32) = 7
    rw [hcr3, load32_store32_of_disjoint (.inr (by decide)),
      load32_congr fun b hb _ => fill_apply_of_not (.inr (by omega))]
    exact load32_store32_self (by decide)
  refine ⟨t, ⟨0x8048000, s₁, hget, by decide, 0x208000, s₂, halloc,
    .inr (.inl ⟨s₂, hmiss⟩)⟩, ?_, hzero,
    ht⟩
  unfold Mem.mallocPage
  rw [bind_of_ok (Mem.assert_ok _ (by decide)), bind_of_ok hget, if_neg (by decide),
    Mem.mallocPageLoop, bind_of_ok halloc, if_neg (by decide), bind_of_ok hadd]
  rfl

end OriginOS
