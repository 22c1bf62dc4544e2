import OriginOS.Kernel.PageProgress
import OriginOS.Kernel.PageRuns

/-! What the page operations keep in every run: no frame has two uses, and the kernel's half of all
address spaces is the same. Both need that every address given to `get_a_page` lies in the range
that the bitmap tells of. `get_a_page` does not check this, and a run in which it sets a bit of a
page directory breaks both. -/

namespace OriginOS

open Lib

/-! ### A run in which `get_a_page` sets a bit of a page directory -/

/-- The words of memory when the boot loader has made the page tables. The first one is an entry of
the interrupt vectors of the BIOS. -/
def bootWord (i : Nat) : Nat :=
  if i = 0 then 0xf000ff53
  else if i = 0x40000 then 0x101007
  else if 0x40300 ≤ i ∧ i < 0x403ff then kernelTable (i - 0x40000) + 7
  else if i = 0x403ff then 0x100007
  else if 0x40400 ≤ i ∧ i < 0x40500 then 4096 * (i - 0x40400) + 7
  else 0

/-- A machine after `mem_init`, with no process. -/
def bootWorld : PageWorld where
  mem := {
    ndebug := false
    phys := ofWords bootWord
    cr3 := bootDir
    pool := (memPoolInit 0x2000000 fun _ => 0).1
    lock := fun _ => lockInit
    kernelVaddr := (memPoolInit 0x2000000 fun _ => 0).2
    kBlockDescs := 0
    task := fun _ => ⟨0, ⟨⟨0, 0, fun _ => 0⟩, 0⟩, 0⟩
    runningThread := 0 }
  live := []

theorem bootWord_lt (i : Nat) : bootWord i < 2 ^ 32 := by
  unfold bootWord kernelTable
  split_ifs <;> omega

theorem bootTables : BootTables (ofWords bootWord) := by
  have hword : ∀ a i, a = 4 * i → load32 (ofWords bootWord) a = bootWord i := by
    rintro a i rfl
    exact load32_ofWords (bootWord_lt i)
  refine ⟨?_, fun i hi hi' => ?_, ?_, fun i hi hi' => ?_,
    fun k hk => ?_, fun i k hi hi' hk hrest => ?_⟩
  · rw [pde, hword _ 0x403ff (by unfold bootDir; omega)]
    rfl
  · rw [pde, hword _ (0x40000 + i) (by unfold bootDir; omega), bootWord]
    rw [if_neg (by omega), if_neg (by omega), if_pos ⟨by omega, by omega⟩,
      show 0x40000 + i - 0x40000 = i by omega]
  · rw [pde, hword _ 0x40000 (by unfold bootDir; omega)]
    rfl
  · rw [pde, hword _ (0x40000 + i) (by unfold bootDir; omega), bootWord]
    rw [if_neg (by omega), if_neg (by omega), if_neg (by omega), if_neg (by omega),
      if_neg (by omega)]
    decide
  · rw [hword _ (0x40400 + k) (by unfold kernelTable; omega), bootWord]
    rw [if_neg (by omega), if_neg (by omega), if_neg (by omega), if_neg (by omega),
      if_pos ⟨by omega, by omega⟩, show 0x40400 + k - 0x40400 = k by omega]
  · rw [hword _ (0x40400 + (i - 768) * 1024 + k) (by unfold kernelTable; omega), bootWord]
    rw [if_neg (by omega), if_neg (by omega), if_neg (by omega), if_neg (by omega),
      if_neg (by omega)]
    decide

theorem bootWorld_init : pageSystem.init bootWorld :=
  ⟨⟨rfl, bootTables, ⟨fun _ => 0, rfl, rfl⟩, fun _ => rfl, rfl, fun _ => rfl⟩, rfl⟩

theorem bootWorld_inOrder :
    InOrder (ofWords bootWord) 0 ⟨fun _ => bootDir, fun _ => none⟩ bootWorld.mem where
  inv := bootWorld_init.1.frameInv
  pool j hj := (bit_memPoolInit (fun _ => 0) .kernel hj).trans (decide_eq_false (by omega)).symm
  range j hj :=
    (bit_kernelVaddr_memPoolInit (fun _ => 0) hj).trans (decide_eq_false (by omega)).symm
  user := bit_memPoolInit (fun _ => 0) .user (by omega)
  locks _ := rfl
  noTable _ _ _ h := nomatch h
  low _ _ := rfl

section Steps

variable {w : PageWorld} {t : MemState} {u v n d : Nat} {pf : PoolFlags}

theorem step_mallocPage (hguard : w.mem.MayUse pf) (hok : Mem.mallocPage pf n w.mem = .ok (v, t)) :
    pageSystem.Step w (.mallocPage pf n)
      ⟨t, if v = 0 then w.live else ⟨pf, w.mem.runningThread, v / 4096, n⟩ :: w.live⟩ := by
  have hexec : pageExec (.mallocPage pf n) w =
      .ok ⟨t, if v = 0 then w.live else ⟨pf, w.mem.runningThread, v / 4096, n⟩ :: w.live⟩ := by
    rw [pageExec, hok]
    rfl
  exact ⟨hguard, hexec⟩

theorem step_getAPage (hguard : pageGuard w (.getAPage pf v))
    (hok : Mem.getAPage pf v w.mem = .ok (n, t)) :
    pageSystem.Step w (.getAPage pf v) ⟨t, w.live⟩ := by
  have hexec : pageExec (.getAPage pf v) w = .ok ⟨t, w.live⟩ := by
    rw [pageExec, hok]
    rfl
  exact ⟨hguard, hexec⟩

theorem step_createUserVaddrBitmap (hguard : pageGuard w (.createUserVaddrBitmap u))
    (hok : Mem.createUserVaddrBitmap u w.mem = .ok ((), t)) :
    pageSystem.Step w (.createUserVaddrBitmap u) ⟨t, w.live⟩ := by
  have hexec : pageExec (.createUserVaddrBitmap u) w = .ok ⟨t, w.live⟩ := by
    rw [pageExec, hok]
    rfl
  exact ⟨hguard, hexec⟩

theorem step_createPageDir (hguard : pageGuard w (.createPageDir u))
    (hok : Mem.createPageDir w.mem = .ok (v, t)) :
    pageSystem.Step w (.createPageDir u) ⟨t.setTask u { t.task u with pgdir := v }, w.live⟩ := by
  have hexec : pageExec (.createPageDir u) w =
      .ok ⟨t.setTask u { t.task u with pgdir := v }, w.live⟩ := by
    rw [pageExec, hok]
    rfl
  exact ⟨hguard, hexec⟩

theorem step_switchTo {g : Frames} (h : FrameInv g w.mem) (u : Nat) :
    pageSystem.Step w (.switchTo u)
      ⟨{ w.mem with cr3 := g.dir u, runningThread := u }, w.live⟩ := by
  have hexec : pageExec (.switchTo u) w =
      .ok ⟨{ w.mem with cr3 := g.dir u, runningThread := u }, w.live⟩ := by
    rw [pageExec, h.pageDirActivate_ok u]
    rfl
  exact ⟨trivial, hexec⟩

end Steps

section Process

variable {low : Nat → UInt8} {g : Frames} {tr : List (PageWorld × PageAct)} {w : PageWorld}
  {k u : Nat}

/-- The run goes on until the thread `u` is a process, whose page directory is the page 31 pages
behind the beginning of its bitmap, and runs. -/
theorem exists_process (run : pageSystem.Run tr w) (hin : ∀ p ∈ tr, p.2.AddressInRange p.1)
    (h : InOrder low k g w.mem) (hk : k + 32 < 3840) (hu : u ≠ w.mem.runningThread)
    (hnone : (w.mem.task u).pgdir = 0) :
    ∃ tr' w', pageSystem.Run tr' w' ∧ (∀ p ∈ tr', p.2.AddressInRange p.1) ∧
      ∃ g', InOrder low (k + 32) g' w'.mem ∧
        (w'.mem.task w'.mem.runningThread).pgdir = 4096 * (0xc0100 + (k + 31)) ∧
        (w'.mem.task w'.mem.runningThread).userprogVaddr = InOrder.userRange k ∧
        EmptyDir w'.mem.phys w'.mem.cr3 := by
  obtain ⟨g₁, s₁, hok₁, h₁, hrun₁, htask₁⟩ := h.createUserVaddrBitmap_ok (by omega) hnone
  obtain ⟨g₂, s₂, hok₂, hgrew₂, h₂⟩ := h₁.mallocPage_ok (show 0 < 8 by omega) (by omega)
  obtain ⟨g₃, s₃, d, hok₃, hgrew₃, h₃, hd, hge, hnd, hempty⟩ := h₂.createPageDir_ok (by omega)
  obtain ⟨htask₂, hrun₂⟩ := hgrew₂.task_eq
  obtain ⟨htask₃, hrun₃⟩ := hgrew₃.task_eq
  rw [hrun₁] at hrun₂
  rw [hrun₂] at hrun₃
  have huser : s₁.task u = { w.mem.task u with userprogVaddr := InOrder.userRange k } := by
    rw [htask₁, Function.update_self]
  rw [htask₂] at htask₃
  have hpg : (s₁.task u).pgdir = 0 := by rw [huser]; exact hnone
  have hrange : (s₁.task u).userprogVaddr = InOrder.userRange k := by rw [huser]
  have hinv₄ : FrameInv (g₃.setDir u d)
      (s₃.setTask u { s₃.task u with pgdir := 4096 * (0xc0100 + (k + 23 + 8)) }) :=
    h₃.inv.newDir (by rw [htask₃]; exact hpg) (by rw [hrun₃]; exact hu) ⟨by omega, by omega⟩ hd hge
      (fun hd' => hnd (hgrew₃.isDir.mp hd')) hempty rfl (by rw [htask₃, hrange]; exact ⟨rfl, rfl⟩)
  have step₁ := step_createUserVaddrBitmap ⟨hu, hnone⟩ hok₁
  obtain ⟨live, step₂⟩ : ∃ live, pageSystem.Step ⟨s₁, w.live⟩ (.mallocPage .kernel 8) ⟨s₂, live⟩ :=
    ⟨_, step_mallocPage (fun heq => PoolFlags.noConfusion heq) hok₂⟩
  have step₃ := step_createPageDir (w := ⟨s₂, live⟩)
    ⟨by rw [hrun₂]; exact hu, by rw [htask₂]; exact hpg, by rw [htask₂, hrange]; exact ⟨rfl, rfl⟩⟩
    hok₃
  have step₄ := step_switchTo (w := ⟨_, live⟩) hinv₄ u
  refine ⟨_, _, (((run.next step₁).next step₂).next step₃).next step₄, ?_, g₃.setDir u d, ?_, ?_⟩
  · simp only [List.mem_cons]
    rintro p (rfl | rfl | rfl | rfl | hp)
    · trivial
    · trivial
    · trivial
    · trivial
    · exact hin p hp
  · exact ⟨hinv₄.switch u, h₃.pool, h₃.range, h₃.user, h₃.locks, h₃.noTable, h₃.low⟩
  · have hdir : (g₃.setDir u d).dir u = d := Function.update_self ..
    simp only [Function.update_self, hdir, htask₃]
    exact ⟨trivial, hrange, hempty⟩

/-- A bit outside of a bitmap: the process gets a page below its range, and a bit of its page
directory is set. -/
theorem exists_strayBit {o b : Nat} (ho : o < 4092) (hb : b < 8)
    (hne : (72 + 8 * o + b) / 1024 ≠ o / 4) :
    ∃ s w, pageSystem.Reachable w ∧ InOrder.StrayBit s o b w.mem ∧ EmptyDir s.phys s.cr3 ∧
      (s.task s.runningThread).pgdir ≠ 0 ∧
      target s.phys bootDir ((s.task s.runningThread).pgdir / 4096) = some s.cr3 ∧
      (s.task s.runningThread).userprogVaddr = InOrder.userRange 0 ∧
      ∃ g, InOrder (ofWords bootWord) 32 g s := by
  obtain ⟨tr, w, run, -, g, h, hpg, hrange, hempty⟩ := exists_process (u := 1)
    (.start bootWorld_init) (fun p hp => absurd hp List.not_mem_nil) bootWorld_inOrder (by omega)
    Nat.one_ne_zero rfl
  obtain ⟨t, hget, hstray⟩ := h.getAPage_stray (by omega) (by omega) hpg hrange ho hb hne
  have hproc : (w.mem.task w.mem.runningThread).pgdir ≠ 0 := by omega
  have hnone : target w.mem.phys w.mem.cr3 (4096 * (72 + 8 * o + b) / 4096) = none := by
    have hent : entry w.mem.phys w.mem.cr3 (4096 * (72 + 8 * o + b) / 4096) = none :=
      if_neg (hempty.not_present (by omega))
    unfold target
    rw [hent]
  have hdir := (h.inv.process _ hproc).2.2.2
  rw [← h.inv.cr3] at hdir
  have hhalf : RightHalf .user (4096 * (72 + 8 * o + b)) := by
    simp only [RightHalf]
    omega
  have step := step_getAPage ⟨hhalf, hnone⟩ hget
  exact ⟨w.mem, _, ⟨_, run.next step⟩, hstray, hempty, hproc, hdir, hrange, g, h⟩

theorem exists_stackPage : ∃ tr w, pageSystem.Run tr w ∧ (∀ p ∈ tr, p.2.AddressInRange p.1) ∧
    ∃ p ∈ tr, p.2 = .getAPage .user 0xbffff000 := by
  obtain ⟨tr, w, run, hin, g, h, hpg, -, hempty⟩ := exists_process (u := 1)
    (.start bootWorld_init) (fun p hp => absurd hp List.not_mem_nil) bootWorld_inOrder (by omega)
    Nat.one_ne_zero rfl
  have hnone : target w.mem.phys w.mem.cr3 (0xbffff000 / 4096) = none := by
    have hent : entry w.mem.phys w.mem.cr3 (0xbffff000 / 4096) = none :=
      if_neg (hempty.not_present (by omega))
    unfold target
    rw [hent]
  obtain ⟨t, hget, -⟩ := h.getAPage_ok (by omega) (v := 0xbffff000) (by omega) (by omega) (by omega)
  have hhalf : RightHalf .user 0xbffff000 := by
    simp only [RightHalf]
    omega
  refine ⟨_, _, run.next (step_getAPage ⟨hhalf, hnone⟩ hget), fun p hp => ?_, _, List.mem_cons_self,
    rfl⟩
  rcases List.mem_cons.mp hp with rfl | hp
  · simp only [PageAct.AddressInRange, InRange, PoolFlags.firstPage, PoolFlags.rangeBytes]
    omega
  · exact hin p hp

end Process

/-! ### Frames -/

theorem PageInv.of_run {tr : List (PageWorld × PageAct)} {w : PageWorld}
    (run : pageSystem.Run tr w) (hrange : ∀ p ∈ tr, p.2.AddressInRange p.1) {u : PageWorld}
    (hu : u ∈ System.states tr w) : PageInv u := by
  obtain ⟨tr', run', hsub⟩ := run.of_mem_states hu
  exact run'.invariant_of (C := fun w a => a.AddressInRange w) (fun _ => PageInv.init)
    (fun _ _ _ hi ha hs => hi.step ha hs) fun p hp => hrange p (hsub p hp)

/-- No frame has two uses in any state of a run in which every address given to `get_a_page` lies in
the range of its bitmap. -/
theorem frames_exclusive {tr : List (PageWorld × PageAct)} {w : PageWorld}
    (run : pageSystem.Run tr w) (hrange : ∀ p ∈ tr, p.2.AddressInRange p.1) :
    ∀ u ∈ System.states tr w, FrameExclusive u.mem := by
  intro u hu
  obtain ⟨g, h, -⟩ := PageInv.of_run run hrange hu
  exact h.exclusive

/-- A process that gets its stack page. -/
theorem frames_exclusive_stack_page : ∃ tr w, pageSystem.Run tr w ∧
    (∃ p ∈ tr, p.2 = .getAPage .user 0xbffff000) ∧ ∀ u ∈ System.states tr w,
    FrameExclusive u.mem := by
  obtain ⟨tr, w, run, hin, hget⟩ := exists_stackPage
  exact ⟨tr, w, run, hget, frames_exclusive run hin⟩

/-- With an address outside of the range, `get_a_page` may map a page whose bit is clear: here it
makes an entry of the page directory of a bit, and the frame 0 a page table. -/
theorem frames_exclusive_fails : ∃ w, pageSystem.Reachable w ∧ ¬ FrameExclusive w.mem := by
  obtain ⟨s, w, hreach, hstray, hempty, hproc, hdir, hrange, g, h⟩ :=
    exists_strayBit (o := 132) (b := 0) (by omega) (by omega) (by omega)
  refine ⟨w, hreach, fun hex => ?_⟩
  -- entry 33 of the page directory was 0
  have hpde : pde w.mem.phys s.cr3 33 = 1 := by
    have hbit := hstray.pde_eq (by omega) (by omega) (by omega)
    rw [show 132 / 4 = 33 from rfl, hempty.low 33 (by omega)] at hbit
    exact hbit
  have hword : load32 w.mem.phys 0 = 0xf000ff53 := by
    refine (load32_congr fun a ha ha' =>
      (hstray.low a (by omega)).trans (h.low a (by omega))).trans ?_
    exact load32_ofWords (i := 0) (bootWord_lt 0)
  have hmapped : target w.mem.phys s.cr3 (0x8048 + 952) ≠ none := by
    have hentry : entry w.mem.phys s.cr3 (0x8048 + 952) = some 0 :=
      entry_eq_some.mpr ⟨by rw [hpde]; rfl, by rw [hpde]; rfl⟩
    rw [target_of_entry hentry, hword]
    exact Option.some_ne_none _
  have hdir' := (hstray.target_boot h.inv (h.inv.process _ hproc).2.1).trans hdir
  have hmarked := hex.userMarked s.runningThread s.cr3
  rw [hstray.task, hrange] at hmarked
  have hbit := hmarked hproc hdir' 952 (by omega) hmapped
  exact absurd hbit (by decide)

/-! ### The kernel's half -/

/-- All page directories have the kernel's page tables, and each points to itself. -/
structure KernelShared (s : MemState) : Prop where
  entries : ∀ d, PageDir s d → ∀ i, 768 ≤ i → i < 1023 → pde s.phys d i = pde s.phys bootDir i
  self : ∀ d, PageDir s d → SelfMapped s.phys d
  translation : ∀ d d', PageDir s d → PageDir s d' → ∀ va, 0xc0000000 ≤ va → va < 0xffc00000 →
    walk s.phys d va = walk s.phys d' va

theorem FrameInv.kernelShared {g : Frames} {s : MemState} (h : FrameInv g s) : KernelShared s where
  entries d hd i hi hi' := by
    rw [h.kernelPde d (h.isDir_of_pageDir hd) i hi hi', h.kernelPde bootDir (.inl rfl) i hi hi']
  self d hd := h.selfMapped (h.isDir_of_pageDir hd)
  translation d d' hd hd' va hlo hhi := by
    have hvp : Space.kernel.Has s (va / 4096) := ⟨by omega, by omega⟩
    unfold walk
    rw [h.target_kernel (h.isDir_of_pageDir hd) hvp, h.target_kernel (h.isDir_of_pageDir hd') hvp]

/-- The kernel's half is the same in every address space, in any state of a run in which every
address given to `get_a_page` lies in the range of its bitmap. -/
theorem kernel_half_shared {tr : List (PageWorld × PageAct)} {w : PageWorld}
    (run : pageSystem.Run tr w) (hrange : ∀ p ∈ tr, p.2.AddressInRange p.1) :
    ∀ u ∈ System.states tr w, KernelShared u.mem := by
  intro u hu
  obtain ⟨g, h, -⟩ := PageInv.of_run run hrange hu
  exact h.kernelShared

theorem kernel_half_shared_stack_page : ∃ tr w, pageSystem.Run tr w ∧
    (∃ p ∈ tr, p.2 = .getAPage .user 0xbffff000) ∧ ∀ u ∈ System.states tr w,
    KernelShared u.mem := by
  obtain ⟨tr, w, run, hin, hget⟩ := exists_stackPage
  exact ⟨tr, w, run, hget, kernel_half_shared run hin⟩

/-- The bit that `get_a_page` sets may be one of an entry for the kernel: here entry 769 points to
the page table of entry 770 afterwards. -/
theorem kernel_half_shared_fails : ∃ w, pageSystem.Reachable w ∧ ¬ KernelShared w.mem := by
  obtain ⟨s, w, hreach, hstray, hempty, hproc, hdir, -, g, h⟩ :=
    exists_strayBit (o := 3077) (b := 4) (by omega) (by omega) (by omega)
  refine ⟨w, hreach, fun hshared => ?_⟩
  have hdir' := (hstray.target_boot h.inv (h.inv.process _ hproc).2.1).trans hdir
  have hpd : PageDir w.mem s.cr3 := by
    refine .inr ⟨s.runningThread, ?_⟩
    rw [hstray.task]
    exact ⟨hproc, hdir'⟩
  have hentry := hshared.entries s.cr3 hpd 769 (by omega) (by omega)
  have hbit := hstray.pde_eq (by omega) (by omega) (by omega)
  have hboot : pde w.mem.phys bootDir 769 = kernelTable 769 + 7 := by
    refine (load32_congr fun a ha ha' => hstray.low a ?_).trans
      (h.inv.kernelPde bootDir (.inl rfl) 769 (by omega) (by omega))
    unfold bootDir at ha'
    omega
  rw [show 3077 / 4 = 769 from rfl, hempty.kernel 769 (by omega) (by omega)] at hbit
  rw [hbit, hboot] at hentry
  exact absurd hentry (by decide)

end OriginOS
