import OriginOS.Kernel.PageData

/-! Page operations that return: as long as nothing has been freed, pages and frames are handed out
in order, and none of the assertions fails. -/

namespace OriginOS

open Lib

/-- Nothing has been freed since `mem_init` and no process has a page table: the first `k` pages of
the kernel's range and the first `k` frames of its pool are in use. `low` is the first page of
memory, which nobody writes. -/
structure InOrder (low : Nat → UInt8) (k : Nat) (g : Frames) (s : MemState) : Prop where
  inv : FrameInv g s
  pool : ∀ j < 3840, (s.pool .kernel).poolBitmap.bit j = decide (j < k)
  range : ∀ j < 3840, s.kernelVaddr.vaddrBitmap.bit j = decide (j < k)
  user : (s.pool .user).poolBitmap.bit 0 = false
  locks : ∀ pf, s.lock pf = lockInit
  noTable : ∀ f t i, g.own f ≠ some (.table t i)
  low : ∀ a < 4096, s.phys a = low a

section Loop

variable {g : Frames} {s : MemState} {k n vp : Nat}

theorem FrameInv.mallocPageLoop_first (h : FrameInv g s)
    (hpool : ∀ j < 3840, (s.pool .kernel).poolBitmap.bit j = decide (j < k)) (hk : k + n ≤ 3840)
    (hsp : ∀ j < n, Space.kernel.Has s (vp + j)) (hmarked : ∀ j < n, Space.kernel.Marked s (vp + j))
    (hnone : ∀ j < n, target s.phys bootDir (vp + j) = none) (v : Nat) :
    ∃ t, Mem.mallocPageLoop .kernel v n (4096 * vp) s = .ok (v, t) ∧
      (∀ j < 3840, (t.pool .kernel).poolBitmap.bit j = decide (j < k + n)) ∧
      t.pool .user = s.pool .user := by
  induction n generalizing g s k vp with
  | zero => exact ⟨s, rfl, hpool, rfl⟩
  | succ n ih =>
    have hsp₀ : Space.kernel.Has s vp := hsp 0 (Nat.succ_pos n)
    have hlt := has_div_lt hsp₀
    have hclear : (s.pool .kernel).poolBitmap.bit k = false := by
      rw [hpool k (by omega)]
      simp
    have hpalloc := Mem.palloc_first h.laidOut (show k < 3840 by omega)
      (fun j hj => by rw [hpool j (by omega)]; exact decide_eq_true hj) hclear
    have hprep := Prepared.of_palloc h (show k < 3840 by omega) hclear .kernel
    generalize hs₁ : s.setPool (Function.update s.pool .kernel ((s.pool .kernel).put k true)) = s₁
      at hpalloc hprep
    have hcr3 : s₁.cr3 = s.cr3 ∧ s₁.phys = s.phys := by
      rw [← hs₁]
      exact ⟨rfl, rfl⟩
    obtain ⟨e, he⟩ : ∃ e, entry s₁.phys bootDir vp = some e :=
      ⟨_, hprep.inv.entry_kernel (.inl rfl) (hprep.has hsp₀)⟩
    have hnone₁ : target s₁.phys bootDir vp = none := by
      rw [hcr3.2]
      exact hnone 0 (Nat.succ_pos n)
    have hnot : ¬ Present (load32 s₁.phys e) := by
      intro hp
      rw [target_of_entry he, if_pos hp] at hnone₁
      exact nomatch hnone₁
    have hadd := Mem.pageTableAdd_ok (hprep.inv.selfMapped hprep.inv.cr3_isDir) (v := 4096 * vp)
      (by omega) (e := e) (by
        rw [show 4096 * vp / 4096 = vp by omega]
        exact (hprep.inv.entry_current (hprep.has hsp₀) trivial).trans he) hnot
      (frameAddr .kernel k)
    have hgrew := hprep.map (by omega) hsp₀ he hnone₁ (hmarked 0 (Nat.succ_pos n))
    have hpool₂ : ∀ j < 3840, (s₁.pool .kernel).poolBitmap.bit j = decide (j < k + 1) := by
      intro j hj
      rw [← hs₁]
      refine (Pool.bit_update s.pool .kernel k true .kernel j).trans ?_
      by_cases heq : j = k
      · rw [if_pos ⟨rfl, heq⟩, heq]
        simp
      · rw [if_neg (fun hc => heq hc.2), hpool j hj]
        exact decide_eq_decide.mpr (by omega)
    have hnext : ∀ j, vp + 1 + j = vp + (j + 1) := fun j => by omega
    obtain ⟨t, hloop, hpool', huser⟩ := ih hgrew.inv hpool₂ (by omega)
      (fun j hj => by
        rw [hgrew.has, hnext j]
        exact hsp (j + 1) (by omega))
      (fun j hj => by
        rw [hgrew.marked, hnext j]
        exact hmarked (j + 1) (by omega))
      (fun j hj => by
        rw [hnext j]
        exact (hgrew.keeps .kernel _ (hsp (j + 1) (by omega)) (by omega)).trans
          (hnone (j + 1) (by omega)))
    refine ⟨t, ?_, fun j hj => ?_, ?_⟩
    · rw [Mem.mallocPageLoop, bind_of_ok hpalloc, if_neg (frameAddr_ne_zero _ _), bind_of_ok hadd,
        show (4096 * vp + pgSize) % 2 ^ 32 = 4096 * (vp + 1) by unfold pgSize; omega]
      exact hloop
    · rw [hpool' j hj]
      exact decide_eq_decide.mpr (by omega)
    · rw [huser, ← hs₁]
      rfl

theorem FrameInv.mallocPage_first (h : FrameInv g s)
    (hpool : ∀ j < 3840, (s.pool .kernel).poolBitmap.bit j = decide (j < k))
    (hrange : ∀ j < 3840, s.kernelVaddr.vaddrBitmap.bit j = decide (j < k)) (hn : 0 < n)
    (hk : k + n < 3840) :
    ∃ t, Mem.mallocPage .kernel n s = .ok (4096 * (0xc0100 + k), t) ∧
      (∀ j < 3840, (t.pool .kernel).poolBitmap.bit j = decide (j < k + n)) ∧
      t.pool .user = s.pool .user := by
  obtain ⟨hstart, hlen⟩ := h.kernelRange
  have hscan : bitmapScan s.ndebug s.kernelVaddr.vaddrBitmap n = .ok (k : Int) :=
    bitmapScan_first s.ndebug hn (by omega) (by omega)
      (fun j hj => by rw [hrange j (by omega)]; exact decide_eq_true hj)
      (fun j hj hj' => by rw [hrange j (by omega)]; exact decide_eq_false (by omega))
  have hget : Mem.vaddrGet .kernel n s = .ok (4096 * (0xc0100 + k), s.setVaddrBitmap .kernel
      (s.kernelVaddr.vaddrBitmap.putRun true n k)) := by
    unfold Mem.vaddrGet
    rw [Mem.read_bind]
    dsimp only [MemState.vaddr]
    rw [hscan, bind_of_ok Mem.ofPanic_ok, if_neg (by omega), Int.toNat_natCast,
      Mem.bitmapSetLoop_one, bind_of_ok Mem.ofPanic_ok, Mem.write_bind, hstart,
      show (kHeapStart + k * pgSize) % 2 ^ 32 = 4096 * (0xc0100 + k) by
        unfold kHeapStart pgSize; omega]
    rfl
  have hsp : ∀ j < n, Space.kernel.Has s (0xc0100 + k + j) :=
    fun j hj => ⟨by omega, by omega⟩
  have hnone : ∀ j < n, target s.phys bootDir (0xc0100 + k + j) = none := by
    intro j hj
    by_contra hne
    have hbit := h.marked .kernel _ (hsp j hj) hne (k + j) (by omega) (by omega)
    rw [hrange (k + j) (by omega)] at hbit
    exact absurd (of_decide_eq_true hbit) (by omega)
  obtain ⟨t, hloop, hbits, huser⟩ := (h.setRun .kernel n k).mallocPageLoop_first hpool
    (by omega) (fun j hj => has_setVaddrBitmap.mpr (hsp j hj))
    (fun j hj => marked_putRun s .kernel n k hj) hnone (4096 * (0xc0100 + k))
  have hmalloc : Mem.mallocPage .kernel n s = .ok (4096 * (0xc0100 + k), t) := by
    unfold Mem.mallocPage
    rw [bind_of_ok (Mem.assert_ok _ (decide_eq_true ⟨hn, by omega⟩)), bind_of_ok hget,
      if_neg (by omega)]
    exact hloop
  exact ⟨t, hmalloc, hbits, huser⟩

end Loop

theorem Grew.task_eq {pf : PoolFlags} {sp : Space} {vp n : Nat} {g g' : Frames} {s t : MemState}
    {b : Bitmap} (h : Grew pf sp vp n g g' (s.setVaddrBitmap .kernel b) t) :
    t.task = s.task ∧ t.runningThread = s.runningThread := by
  obtain ⟨pool, mem, rfl⟩ := h.state
  exact ⟨rfl, rfl⟩

namespace InOrder

variable {low : Nat → UInt8} {g g' : Frames} {s t : MemState} {k n : Nat}

theorem plain_low (h : InOrder low k g s) : g.Plain 0 where
  aligned := rfl
  notDir hd := by
    have := h.inv.dir_bounds hd
    omega
  notTable := h.noTable 0
  notBoot := .inl (by omega)

theorem of_grew (h : InOrder low k g s)
    (hgrew : Grew .kernel .kernel (0xc0100 + k) n g g' (s.setVaddrBitmap .kernel
      (s.kernelVaddr.vaddrBitmap.putRun true n k)) t)
    (hpool : ∀ j < 3840, (t.pool .kernel).poolBitmap.bit j = decide (j < k + n))
    (huser : (t.pool .user).poolBitmap.bit 0 = false) : InOrder low (k + n) g' t where
  inv := hgrew.inv
  pool := hpool
  range j hj := by
    obtain ⟨pool, mem, rfl⟩ := hgrew.state
    refine (Bitmap.bit_putRun _ true n k j).trans ?_
    split
    · next hin => exact (decide_eq_true (by omega)).symm
    · next hout =>
      rw [h.range j hj]
      exact decide_eq_decide.mpr (by omega)
  user := huser
  locks := by
    obtain ⟨pool, mem, rfl⟩ := hgrew.state
    exact h.locks
  noTable f u i hf := by
    cases hold : g.own f with
    | some r =>
      rw [hgrew.own f r hold] at hf
      exact h.noTable f u i (hold.trans hf)
    | none =>
      rcases hgrew.fresh f _ hf hold with ⟨_, _, hr⟩ | ⟨hne, _⟩
      · exact nomatch hr
      · exact hne rfl
  low a ha := (hgrew.bytes 0 (.inr (by omega)) h.plain_low a (Nat.zero_le a) (by omega)).trans
    (h.low a ha)

theorem mallocPage_ok (h : InOrder low k g s) (hn : 0 < n) (hk : k + n < 3840) :
    ∃ g' t, Mem.mallocPage .kernel n s = .ok (4096 * (0xc0100 + k), t) ∧
      Grew .kernel .kernel (0xc0100 + k) n g g' (s.setVaddrBitmap .kernel
        (s.kernelVaddr.vaddrBitmap.putRun true n k)) t ∧ InOrder low (k + n) g' t := by
  obtain ⟨t, hmalloc, hpool, huser⟩ := h.inv.mallocPage_first h.pool h.range hn hk
  rcases (h.inv.ensures_mallocPage (E := fun _ => True) (fun _ _ => trivial)
    (fun heq => PoolFlags.noConfusion heq) n).ok hmalloc with
    ⟨hzero, -⟩ | ⟨i, g', -, -, -, hv, -, hgrew⟩
  · omega
  · obtain rfl : i = k := by
      simp only [PoolFlags.firstPage] at hv
      omega
    exact ⟨g', t, hmalloc, hgrew, h.of_grew hgrew hpool (huser ▸ h.user)⟩

theorem getKernelPages_ok (h : InOrder low k g s) (hn : 0 < n) (hk : k + n < 3840) :
    ∃ g' t, Mem.getKernelPages n s = .ok (4096 * (0xc0100 + k), t) ∧
      Grew .kernel .kernel (0xc0100 + k) n g g' (s.setVaddrBitmap .kernel
        (s.kernelVaddr.vaddrBitmap.putRun true n k)) t ∧
      Zeroed .kernel (0xc0100 + k) n g' t ∧ InOrder low (k + n) g' t := by
  obtain ⟨g₁, t₁, hmalloc, hgrew₁, h₁⟩ := h.mallocPage_ok hn hk
  have hsp : ∀ j < n, Space.kernel.Has s (0xc0100 + k + j) := fun j hj => ⟨by omega, by omega⟩
  have halloc := hgrew₁.allocated (h.inv.setRun .kernel n k)
    fun j hj => has_setVaddrBitmap.mpr (hsp j hj)
  obtain ⟨mem, hloop, -⟩ := h₁.inv.memsetPages (show Space.kernel.Current t₁ from trivial) halloc
  have hne : 4096 * (0xc0100 + k) ≠ 0 := by omega
  have hset : Mem.memset (4096 * (0xc0100 + k)) 0 (n * pgSize) t₁ = .ok ((), t₁.setPhys mem) := by
    unfold Mem.memset
    rw [bind_of_ok (Mem.assert_ok _ (decide_eq_true hne))]
    exact hloop
  have hget : Mem.getKernelPages n s = .ok (4096 * (0xc0100 + k), t₁.setPhys mem) := by
    unfold Mem.getKernelPages
    rw [bind_of_ok hmalloc, if_pos hne, bind_of_ok hset]
    rfl
  rcases (h.inv.ensures_getKernelPages (E := fun _ => True) (fun _ _ => trivial) n).ok hget with
    ⟨hzero, -⟩ | ⟨-, i, g', -, -, -, hv, -, hgrew, hclear⟩
  · omega
  · obtain rfl : i = k := by
      simp only [PoolFlags.firstPage] at hv
      omega
    exact ⟨g', _, hget, hgrew, hclear, h.of_grew hgrew h₁.pool h₁.user⟩

theorem createPageDir_ok (h : InOrder low k g s) (hk : k + 1 < 3840) :
    ∃ g' t d, Mem.createPageDir s = .ok (4096 * (0xc0100 + k), t) ∧
      Grew .kernel .kernel (0xc0100 + k) 1 g g' (s.setVaddrBitmap .kernel
        (s.kernelVaddr.vaddrBitmap.putRun true 1 k)) t ∧ InOrder low (k + 1) g' t ∧
      target t.phys bootDir (0xc0100 + k) = some d ∧ 0x200000 ≤ d ∧ ¬ g.IsDir d ∧
      EmptyDir t.phys d := by
  obtain ⟨g', t₁, hget, hgrew₁, hzero, h₁⟩ := h.getKernelPages_ok Nat.one_pos hk
  obtain ⟨mem, d, hok, hgrew, hrest⟩ := hgrew₁.fillDir_ok h.inv hzero ⟨by omega, by omega⟩
  refine ⟨g', t₁.setPhys mem, d, ?_, hgrew, h.of_grew hgrew h₁.pool h₁.user, hrest⟩
  unfold Mem.createPageDir
  rw [bind_of_ok hget, if_neg (by omega)]
  exact hok

/-- The range that `create_user_vaddr_bitmap` makes when the bitmap begins on page `k` of the
kernel's range. -/
def userRange (k : Nat) : VirtualAddr :=
  ⟨bitmapInit ⟨94199, 4096 * (0xc0100 + k), fun _ => 0⟩, 0x8048000⟩

theorem createUserVaddrBitmap_ok (h : InOrder low k g s) (hk : k + 23 < 3840) {u : Nat}
    (hu : (s.task u).pgdir = 0) :
    ∃ g' t, Mem.createUserVaddrBitmap u s = .ok ((), t) ∧ InOrder low (k + 23) g' t ∧
      t.runningThread = s.runningThread ∧
      t.task = Function.update s.task u { s.task u with userprogVaddr := userRange k } := by
  obtain ⟨g', t, hget, hgrew, -, h'⟩ := h.getKernelPages_ok (show 0 < 23 by omega) hk
  obtain ⟨htask, hrun⟩ := hgrew.task_eq
  have hcnt : Mem.divRoundUp ((0xc0000000 - Mem.userVaddrStart) / pgSize / 8) pgSize = 23 := rfl
  have hlen : (0xc0000000 - Mem.userVaddrStart) / pgSize / 8 = 94199 := rfl
  refine ⟨g', t.setTask u { s.task u with userprogVaddr := userRange k }, ?_, ?_, hrun, ?_⟩
  · unfold Mem.createUserVaddrBitmap
    dsimp only
    rw [hcnt, bind_of_ok hget, bind_of_ok (Mem.assert_ok _ (decide_eq_true (by omega))),
      Mem.read_bind, htask, hlen]
    unfold MemState.setTask
    rw [htask]
    rfl
  · have hpg : (t.task u).pgdir = 0 := by rw [htask]; exact hu
    exact ⟨h'.inv.setTask hpg hu, h'.pool, h'.range, h'.user, h'.locks, h'.noTable, h'.low⟩
  · rw [← htask]
    rfl

end InOrder

/-! ### `get_a_page` -/

namespace Mem

variable {s : MemState} {k v : Nat}

/-- `get_a_page` after the bit has been set, for a page without a page table, when the first frame
of the user pool is free and the first `k` of the kernel's are not. -/
theorem getAPageMap_ok (hlaid : PoolsLaidOut s.pool)
    (huser : (s.pool .user).poolBitmap.bit 0 = false)
    (hkernel : ∀ j < 3840, (s.pool .kernel).poolBitmap.bit j = decide (j < k)) (hk : k < 3840)
    (hself : SelfMapped s.phys s.cr3) (hcr3 : s.cr3 % 4096 = 0) (hne : frameAddr .kernel k ≠ s.cr3)
    (hv : v < 0xffc00000) (habsent : ¬ Present (pde s.phys s.cr3 (v / 4096 / 1024)))
    (hlock : s.lock .user = ⟨0, some s.runningThread, 1⟩) :
    ∃ pool, getAPageMap .user v s = .ok (v, ((s.setPool pool).setPhys
      (store32 (FrameInv.withTable s.phys s.cr3 (v / 4096 / 1024) (frameAddr .kernel k))
        (frameAddr .kernel k + 4 * (v / 4096 % 1024)) (pageEntry (frameAddr .user 0)))).setLock
          .user lockInit) := by
  have hb := frameAddr_bounds .kernel hk
  have hpalloc := palloc_first hlaid (show 0 < 3840 by omega)
    (fun j hj => absurd hj (Nat.not_lt_zero j)) huser
  generalize hs₁ : s.setPool (Function.update s.pool .user ((s.pool .user).put 0 true)) = s₁
    at hpalloc
  have hlaid₁ : PoolsLaidOut s₁.pool := by
    rw [← hs₁]
    exact hlaid.put .user 0 true
  have hbit₁ : ∀ j < 3840, (s₁.pool .kernel).poolBitmap.bit j = decide (j < k) := by
    rw [← hs₁]
    exact hkernel
  have hq := palloc_first hlaid₁ hk
    (fun j hj => by rw [hbit₁ j (by omega)]; exact decide_eq_true hj)
    (by rw [hbit₁ k hk]; exact decide_eq_false (by omega))
  generalize Function.update s₁.pool .kernel ((s₁.pool .kernel).put k true) = pool at hq
  have hadd := pageTableAdd_newTable (s := s₁) (by rw [← hs₁]; exact hself) hv
    (by rw [← hs₁]; exact hcr3) (by rw [← hs₁]; exact habsent) hq hb.2.2 (by omega)
    (by rw [← hs₁]; exact hne) (frameAddr .user 0)
  rw [← hs₁] at hpalloc hadd
  refine ⟨pool, ?_⟩
  unfold getAPageMap
  rw [bind_of_ok hpalloc, if_neg (frameAddr_ne_zero _ _), bind_of_ok hadd]
  refine bind_of_ok (lockRelease_ok ?_)
  exact hlock

theorem getAPage_user (hlock : s.lock .user = lockInit)
    (hproc : (s.task s.runningThread).pgdir ≠ 0) {t : MemState}
    (hbit : getAPageBit .user v 189 (s.setLock .user ⟨0, some s.runningThread, 1⟩) = .ok ((), t)) :
    getAPage .user v s = getAPageMap .user v t := by
  unfold getAPage
  rw [bind_of_ok (lockAcquire_ok hlock), read_bind]
  dsimp only
  rw [if_pos ⟨hproc, rfl⟩, bind_of_ok hbit]

theorem getAPageBit_ok (hstart : (s.vaddr .user).vaddrStart = 0x8048000)
    (hlen : (s.vaddr .user).vaddrBitmap.btmpBytesLen = 94199) (hlo : 0x8048 < v / 4096)
    (hhi : v < 0xc0000000) (line : Nat) :
    ∃ b, getAPageBit .user v line s = .ok ((), s.setVaddrBitmap .user b) := by
  have hidx : (v + 2 ^ 32 - (s.vaddr .user).vaddrStart) % 2 ^ 32 / pgSize = v / 4096 - 0x8048 := by
    rw [hstart]
    unfold pgSize
    omega
  unfold getAPageBit
  rw [read_bind]
  dsimp only
  rw [hidx, bind_of_ok (assert_ok _ (decide_eq_true (by omega))),
    if_pos (by rw [hlen]; omega), bitmapSet_one]
  exact ⟨_, rfl⟩

/-- `get_a_page` for a page below the user range whose bit lies in byte `o` of the page that begins
31 pages behind the beginning of the bitmap: it sets bit `b` of that byte. -/
theorem getAPageBit_stray {kb pa o b : Nat} (hrange : s.vaddr .user = InOrder.userRange kb)
    (hkb : kb + 31 < 3840) (ho : o < 4096) (hb : b < 8)
    (hwalk : walk s.phys s.cr3 (4096 * (0xc0100 + (kb + 31)) + o) = some pa) (line : Nat) :
    getAPageBit .user (4096 * (72 + 8 * o + b)) line s = .ok ((),
      s.setPhys (Function.update s.phys pa (s.phys pa ||| bitmapMask b))) := by
  have hidx : (4096 * (72 + 8 * o + b) + 2 ^ 32 - (InOrder.userRange kb).vaddrStart) % 2 ^ 32 /
      pgSize = 8 * (126976 + o) + b := by
    unfold InOrder.userRange pgSize
    dsimp only
    omega
  have hbyte : ((InOrder.userRange kb).vaddrBitmap.addr + (8 * (126976 + o) + b) / 8) % 2 ^ 32 =
      4096 * (0xc0100 + (kb + 31)) + o := by
    show (4096 * (0xc0100 + kb) + (8 * (126976 + o) + b) / 8) % 2 ^ 32 = _
    omega
  have hfar : ¬ (8 * (126976 + o) + b) / 8 ≤ (InOrder.userRange kb).vaddrBitmap.btmpBytesLen := by
    show ¬ (8 * (126976 + o) + b) / 8 ≤ 94199
    omega
  unfold getAPageBit
  rw [read_bind, hrange]
  dsimp only
  rw [hidx, bind_of_ok (assert_ok _ (decide_eq_true (by omega))), if_neg hfar, hbyte,
    bind_of_ok (loadByte_ok hwalk), storeByte_ok hwalk,
    show (8 * (126976 + o) + b) % 8 = b by omega]

end Mem

namespace InOrder

variable {low : Nat → UInt8} {g : Frames} {s : MemState} {k kb o b : Nat}

theorem not_present (h : InOrder low k g s) {t i : Nat} (ht : (s.task t).pgdir ≠ 0) (hi : i < 768) :
    ¬ Present (pde s.phys (g.dir t) i) :=
  fun hp => h.noTable _ t i (h.inv.table t ht i hi hp)

theorem frameAddr_ne_cr3 (h : InOrder low k g s) (hk : k < 3840)
    (hproc : (s.task s.runningThread).pgdir ≠ 0) : frameAddr .kernel k ≠ s.cr3 := by
  intro heq
  have hown := h.inv.own_dir hproc
  rw [← h.inv.cr3, ← heq] at hown
  have hbit := (h.inv.bit .kernel k hk).mpr (by rw [hown]; exact Option.some_ne_none _)
  rw [h.pool k hk] at hbit
  exact absurd (of_decide_eq_true hbit) (by omega)

/-- `get_a_page` gives the running process a page of its range, other than the first. -/
theorem getAPage_ok (h : InOrder low k g s) (hk : k < 3840) {v : Nat}
    (hproc : (s.task s.runningThread).pgdir ≠ 0) (hlo : 0x8048 < v / 4096) (hhi : v < 0xc0000000) :
    ∃ t, Mem.getAPage .user v s = .ok (v, t) ∧ t.lock .user = lockInit := by
  obtain ⟨hstart, hlen⟩ := h.inv.userRange _ hproc
  obtain ⟨b, hbit⟩ := Mem.getAPageBit_ok (s := s.setLock .user ⟨0, some s.runningThread, 1⟩) hstart
    hlen hlo hhi 189
  have habsent : ¬ Present (pde s.phys s.cr3 (v / 4096 / 1024)) := by
    rw [h.inv.cr3]
    exact h.not_present hproc (by omega)
  obtain ⟨pool, hmap⟩ := Mem.getAPageMap_ok
    (s := (s.setLock .user ⟨0, some s.runningThread, 1⟩).setVaddrBitmap .user b) h.inv.laidOut
    h.user h.pool hk (h.inv.selfMapped h.inv.cr3_isDir) (h.inv.dir_bounds h.inv.cr3_isDir).1
    (h.frameAddr_ne_cr3 hk hproc) (show v < 0xffc00000 by omega) habsent rfl
  refine ⟨_, (Mem.getAPage_user (h.locks .user) hproc hbit).trans hmap, ?_⟩
  rw [MemState.setLock_lock, Function.update_self]

/-- What `getAPage_stray` leaves: a bit of the page directory has been set, and an entry of it made.
-/
structure StrayBit (s : MemState) (o b : Nat) (t : MemState) : Prop where
  task : t.task = s.task
  low : ∀ a < 0x200000, t.phys a = s.phys a
  dir : ∀ a, s.cr3 ≤ a → a < s.cr3 + 4096 →
    (a < s.cr3 + 4 * ((72 + 8 * o + b) / 1024) ∨ s.cr3 + 4 * ((72 + 8 * o + b) / 1024) + 4 ≤ a) →
    t.phys a =
      Function.update s.phys (s.cr3 + o) (s.phys (s.cr3 + o) ||| bitmapMask b) a

/-- When the page directory of the running process lies 31 pages behind its bitmap, `get_a_page` of
a page below the user range sets a bit of the page directory. -/
theorem getAPage_stray (h : InOrder low k g s) (hk : k < 3840) (hkb : kb + 31 < 3840)
    (hpg : (s.task s.runningThread).pgdir = 4096 * (0xc0100 + (kb + 31)))
    (hrange : (s.task s.runningThread).userprogVaddr = userRange kb) (ho : o < 4092) (hb : b < 8)
    (hne : (72 + 8 * o + b) / 1024 ≠ o / 4) :
    ∃ t, Mem.getAPage .user (4096 * (72 + 8 * o + b)) s = .ok (4096 * (72 + 8 * o + b), t) ∧
      StrayBit s o b t := by
  have hproc : (s.task s.runningThread).pgdir ≠ 0 := by omega
  obtain ⟨-, hhas, hge, hdir⟩ := h.inv.process _ hproc
  rw [← h.inv.cr3] at hdir hge
  have hcr3 := (h.inv.dir_bounds h.inv.cr3_isDir).1
  have hq := h.frameAddr_ne_cr3 hk hproc
  have hqb := frameAddr_bounds .kernel hk
  have hpage : (s.task s.runningThread).pgdir / 4096 = 0xc0100 + (kb + 31) := by omega
  rw [hpage] at hhas hdir
  have hwalk : walk s.phys s.cr3 (4096 * (0xc0100 + (kb + 31)) + o) = some (s.cr3 + o) :=
    walk_of_target ((h.inv.target_kernel h.inv.cr3_isDir hhas).trans hdir) (by omega)
  generalize hmem : Function.update s.phys (s.cr3 + o) (s.phys (s.cr3 + o) ||| bitmapMask b) = mem
  have hbit : Mem.getAPageBit .user (4096 * (72 + 8 * o + b)) 189
      (s.setLock .user ⟨0, some s.runningThread, 1⟩) =
        .ok ((), (s.setLock .user ⟨0, some s.runningThread, 1⟩).setPhys mem) := by
    rw [← hmem]
    exact Mem.getAPageBit_stray (s := s.setLock .user ⟨0, some s.runningThread, 1⟩) hrange hkb
      (by omega) hb hwalk 189
  -- the bit is not one of the entries that the rest of the call uses
  have hpde : ∀ i < 1024, i ≠ o / 4 → pde mem s.cr3 i = pde s.phys s.cr3 i := by
    intro i hi hio
    rw [← hmem]
    exact load32_congr fun a ha ha' => Function.update_of_ne (by omega) ..
  have hself : SelfMapped mem s.cr3 := by
    have hold := h.inv.selfMapped h.inv.cr3_isDir
    have heq := hpde 1023 (by omega) (by omega)
    exact ⟨heq ▸ hold.present, heq ▸ hold.frame⟩
  have habsent : ¬ Present (pde mem s.cr3 (4096 * (72 + 8 * o + b) / 4096 / 1024)) := by
    rw [show 4096 * (72 + 8 * o + b) / 4096 = 72 + 8 * o + b by omega,
      hpde _ (by omega) hne, h.inv.cr3]
    exact h.not_present hproc (by omega)
  obtain ⟨pool, hmap⟩ := Mem.getAPageMap_ok
    (s := (s.setLock .user ⟨0, some s.runningThread, 1⟩).setPhys mem) h.inv.laidOut h.user h.pool hk
    hself hcr3 hq (show 4096 * (72 + 8 * o + b) < 0xffc00000 by omega) habsent rfl
  refine ⟨_, (Mem.getAPage_user (h.locks .user) hproc hbit).trans hmap, rfl, fun a ha => ?_,
    fun a ha ha' hout => ?_⟩
  all_goals
    rw [show 4096 * (72 + 8 * o + b) / 4096 = 72 + 8 * o + b by omega]
    refine (store32_apply_of_not (by omega)).trans ((fill_apply_of_not (by omega)).trans
      ((store32_apply_of_not ?_).trans ?_))
    · show a < s.cr3 + _ ∨ s.cr3 + _ + 4 ≤ a
      omega
    show mem a = _
    rw [← hmem]
  exact Function.update_of_ne (by omega) ..

namespace StrayBit

variable {t : MemState}

theorem pde_eq (h : StrayBit s o b t) (ho : o < 4096) (hb : b < 8)
    (hne : (72 + 8 * o + b) / 1024 ≠ o / 4) :
    pde t.phys s.cr3 (o / 4) = pde s.phys s.cr3 (o / 4) ||| 2 ^ (8 * (o % 4) + b) := by
  have hbit := load32_setBit s.phys (s.cr3 + 4 * (o / 4)) (show o % 4 < 4 by omega) hb
  rw [show s.cr3 + 4 * (o / 4) + o % 4 = s.cr3 + o by omega] at hbit
  exact (load32_congr fun a ha ha' => h.dir a (by omega) (by omega) (by omega)).trans hbit

theorem target_boot (h : StrayBit s o b t) (hinv : FrameInv g s) {vp : Nat}
    (hvp : Space.kernel.Has s vp) : target t.phys bootDir vp = target s.phys bootDir vp := by
  have hlt := hvp.2
  refine target_congr (load32_congr fun a ha ha' => h.low a ?_) fun e he => ?_
  · unfold bootDir at ha'
    omega
  · rw [hinv.entry_kernel (.inl rfl) hvp] at he
    obtain rfl := Option.some.inj he
    refine load32_congr fun a ha ha' => h.low a ?_
    unfold kernelTable at ha'
    omega

end StrayBit

end InOrder

end OriginOS
