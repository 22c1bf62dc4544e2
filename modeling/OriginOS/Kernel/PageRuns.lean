import Mathlib.Data.List.Pairwise
import OriginOS.Kernel.PageData
import OriginOS.Lib.System

/-! Runs of the page operations, one at a time, from the state after `mem_init`, and the invariant
that they keep as long as the addresses given to `get_a_page` lie in the ranges that the bitmaps
tell of. -/

namespace OriginOS

open Lib

/-! ### The property -/

/-- The address of a page directory: that of the kernel, or that of a process. -/
def PageDir (s : MemState) (d : Nat) : Prop :=
  d = bootDir ∨ ∃ t, (s.task t).pgdir ≠ 0 ∧
    target s.phys bootDir ((s.task t).pgdir / 4096) = some d

/-- The address of a page table that an entry 0..1022 of a page directory points to. -/
def PageTable (s : MemState) (b : Nat) : Prop :=
  ∃ d i, PageDir s d ∧ i < 1023 ∧ Present (pde s.phys d i) ∧ b = frameOf (pde s.phys d i)

def LeafEntry (s : MemState) (e : Nat) : Prop := ∃ b j, PageTable s b ∧ j < 1024 ∧ e = b + 4 * j

def Targets (s : MemState) (e f : Nat) : Prop :=
  LeafEntry s e ∧ Present (load32 s.phys e) ∧ frameOf (load32 s.phys e) = f

/-- No frame has two uses, and the bitmaps agree with the page tables. -/
structure FrameExclusive (s : MemState) : Prop where
  once : ∀ e e' pf i, i < 3840 → Targets s e (frameAddr pf i) → Targets s e' (frameAddr pf i) →
    e = e'
  notTable : ∀ e f, Targets s e f → ¬ PageTable s f
  free : ∀ pf i, i < 3840 → (s.pool pf).poolBitmap.bit i = false →
    ¬ PageTable s (frameAddr pf i) ∧ ∀ e, ¬ Targets s e (frameAddr pf i)
  kernelMarked : ∀ k < 3840, target s.phys bootDir (0xc0100 + k) ≠ none →
    s.kernelVaddr.vaddrBitmap.bit k = true
  userMarked : ∀ t d, (s.task t).pgdir ≠ 0 →
    target s.phys bootDir ((s.task t).pgdir / 4096) = some d →
    ∀ k < 753592, target s.phys d (0x8048 + k) ≠ none →
      (s.task t).userprogVaddr.vaddrBitmap.bit k = true

namespace FrameInv

variable {g : Frames} {s : MemState}

theorem pageDir_cases (h : FrameInv g s) {d : Nat} (hd : PageDir s d) :
    d = bootDir ∨ ∃ t, (s.task t).pgdir ≠ 0 ∧ d = g.dir t := by
  rcases hd with hd | ⟨t, ht, htarget⟩
  · exact .inl hd
  · rw [(h.process t ht).2.2.2] at htarget
    exact .inr ⟨t, ht, (Option.some.inj htarget).symm⟩

theorem isDir_of_pageDir (h : FrameInv g s) {d : Nat} (hd : PageDir s d) : g.IsDir d := by
  rcases h.pageDir_cases hd with hd | ⟨t, -, hd⟩
  · exact .inl hd
  · exact .inr ⟨t, hd.symm⟩

theorem pageTable_cases (h : FrameInv g s) {b : Nat} (hb : PageTable s b) :
    (∃ i, 768 ≤ i ∧ i < 1023 ∧ b = kernelTable i) ∨
    ∃ t i, (s.task t).pgdir ≠ 0 ∧ i < 768 ∧ Present (pde s.phys (g.dir t) i) ∧
      b = frameOf (pde s.phys (g.dir t) i) := by
  obtain ⟨d, i, hd, hi, hp, rfl⟩ := hb
  by_cases hlow : i < 768
  · rcases h.pageDir_cases hd with rfl | ⟨t, ht, rfl⟩
    · obtain rfl : i = 0 := by
        by_contra hne
        exact h.bootRest i (by omega) hlow hp
      rw [h.bootFirst]
      exact .inl ⟨768, Nat.le_refl _, by omega, frameOf_kernelTable 768⟩
    · exact .inr ⟨t, i, ht, hlow, hp, rfl⟩
  · rw [h.kernelPde d (h.isDir_of_pageDir hd) i (by omega) hi, frameOf_kernelTable]
    exact .inl ⟨i, by omega, hi, rfl⟩

theorem leafEntry_cases (h : FrameInv g s) {e : Nat} (he : LeafEntry s e) :
    ∃ (sp : Space) (vp : Nat), sp.Has s vp ∧ entry s.phys (sp.dir g) vp = some e := by
  obtain ⟨b, j, hb, hj, rfl⟩ := he
  rcases h.pageTable_cases hb with ⟨i, hi, hi', hbase⟩ | ⟨t, i, ht, hi, hp, rfl⟩
  · have hhas : Space.kernel.Has s (i * 1024 + j) := ⟨by omega, by omega⟩
    refine ⟨.kernel, i * 1024 + j, hhas, ?_⟩
    rw [hbase, Space.dir, h.entry_kernel (.inl rfl) hhas,
      show (i * 1024 + j) / 1024 = i by omega, show (i * 1024 + j) % 1024 = j by omega]
  · refine ⟨.user t, i * 1024 + j, ⟨ht, by omega⟩, ?_⟩
    have hdiv : (i * 1024 + j) / 1024 = i := by omega
    rw [Space.dir, entry_of_present (by rw [hdiv]; exact hp), hdiv,
      show (i * 1024 + j) % 1024 = j by omega]

theorem targets_cases (h : FrameInv g s) {e f : Nat} (he : Targets s e f) :
    ∃ (sp : Space) (vp : Nat), sp.Has s vp ∧ entry s.phys (sp.dir g) vp = some e ∧
      (f < 0x100000 ∨ g.own f = some (.page sp vp)) := by
  obtain ⟨hleaf, hp, rfl⟩ := he
  obtain ⟨sp, vp, hsp, hentry⟩ := h.leafEntry_cases hleaf
  exact ⟨sp, vp, hsp, hentry, h.page sp vp _ hsp (target_eq_some.mpr ⟨e, hentry, hp, rfl⟩)⟩

theorem own_of_pageTable (h : FrameInv g s) {b : Nat} (hb : PageTable s b) :
    (0x101000 ≤ b ∧ b < 0x200000) ∨ ∃ t i, g.own b = some (.table t i) := by
  rcases h.pageTable_cases hb with ⟨i, hi, hi', hbase⟩ | ⟨t, i, ht, hi, hp, rfl⟩
  · unfold kernelTable at hbase
    exact .inl (by omega)
  · exact .inr ⟨t, i, h.table t ht i hi hp⟩

theorem exclusive (h : FrameInv g s) : FrameExclusive s where
  once e e' pf i hi he he' := by
    have hb := frameAddr_bounds pf hi
    obtain ⟨sp, vp, hsp, hentry, hf⟩ := h.targets_cases he
    obtain ⟨sp', vp', hsp', hentry', hf'⟩ := h.targets_cases he'
    have hown := hf.resolve_left (by omega)
    rw [hf'.resolve_left (by omega)] at hown
    obtain ⟨rfl, rfl⟩ := Role.page.inj (Option.some.inj hown)
    exact Option.some.inj (hentry.symm.trans hentry')
  notTable e f he hb := by
    obtain ⟨sp, vp, -, -, hf⟩ := h.targets_cases he
    rcases h.own_of_pageTable hb with hlow | ⟨t, i, ht⟩
    · have hown := hf.resolve_left (by omega)
      have hbound := h.own_bounds (f := f) (by rw [hown]; exact Option.some_ne_none _)
      omega
    · have hbound := h.own_bounds (f := f) (by rw [ht]; exact Option.some_ne_none _)
      rw [hf.resolve_left (by omega)] at ht
      exact nomatch ht
  free pf i hi hbit := by
    have hb := frameAddr_bounds pf hi
    have hnone : g.own (frameAddr pf i) = none := by
      by_contra hne
      rw [(h.bit pf i hi).mpr hne] at hbit
      exact Bool.noConfusion hbit
    refine ⟨fun htable => ?_, fun e he => ?_⟩
    · rcases h.own_of_pageTable htable with hlow | ⟨t, j, ht⟩
      · omega
      · rw [hnone] at ht
        exact nomatch ht
    · obtain ⟨sp, vp, -, -, hf⟩ := h.targets_cases he
      have hown := hf.resolve_left (by omega)
      rw [hnone] at hown
      exact nomatch hown
  kernelMarked k hk hmapped :=
    h.marked .kernel (0xc0100 + k) ⟨by omega, by omega⟩ hmapped k hk rfl
  userMarked t d ht hd k hk hmapped := by
    rw [(h.process t ht).2.2.2] at hd
    rw [← Option.some.inj hd] at hmapped
    exact h.marked (.user t) (0x8048 + k) ⟨ht, by omega⟩ hmapped k hk rfl

end FrameInv

/-! ### `get_a_page` -/

section GetAPage

variable {g : Frames} {s : MemState} {pf : PoolFlags} {v : Nat}

abbrev Returns {α : Type} (x : Mem α) (Q : α → MemState → Prop) (s : MemState) : Prop :=
  Ensures x (fun _ => True) Q s

theorem returns_lockAcquire (hdebug : s.ndebug = false) (pf : PoolFlags) :
    Returns (Mem.lockAcquire pf) (fun _ t => ∃ l, t = s.setLock pf l) s := by
  unfold Mem.lockAcquire
  refine Mem.ensures_read_bind ?_
  dsimp only
  split
  · split
    · exact ensures_stop trivial
    · refine ensures_bind (Mem.ensures_assert hdebug (fun _ => ?_) trivial)
      refine ensures_bind (Mem.ensures_assert hdebug (fun _ => ?_) trivial)
      exact ⟨_, rfl⟩
  · exact ⟨_, rfl⟩

theorem returns_lockRelease (hdebug : s.ndebug = false) (pf : PoolFlags) :
    Returns (Mem.lockRelease pf) (fun _ t => ∃ l, t = s.setLock pf l) s := by
  unfold Mem.lockRelease
  refine Mem.ensures_read_bind ?_
  refine ensures_bind (Mem.ensures_assert hdebug (fun _ => ?_) trivial)
  split
  · exact ⟨_, rfl⟩
  · refine ensures_bind (Mem.ensures_assert hdebug (fun _ => ?_) trivial)
    refine ensures_bind (Mem.ensures_assert hdebug (fun _ => ?_) trivial)
    refine ensures_bind (Mem.ensures_assert hdebug (fun _ => ?_) trivial)
    exact ⟨_, rfl⟩

/-- The address is one of the range that the bitmap of `pf` tells of. -/
def InRange (pf : PoolFlags) (v : Nat) : Prop :=
  pf.firstPage ≤ v / 4096 ∧ v / 4096 < pf.firstPage + 8 * pf.rangeBytes

theorem FrameInv.returns_getAPageBit (h : FrameInv g s) (hproc : s.MayUse pf) (hv : InRange pf v)
    (line : Nat) :
    Returns (Mem.getAPageBit pf v line) (fun _ t => t = s.setVaddrBitmap pf
      ((s.vaddr pf).vaddrBitmap.putRun true 1 (v / 4096 - pf.firstPage))) s := by
  obtain ⟨hstart, hlen⟩ := h.range hproc
  obtain ⟨hlo, hhi⟩ := hv
  have hidx : (v + 2 ^ 32 - (s.vaddr pf).vaddrStart) % 2 ^ 32 / pgSize =
    v / 4096 - pf.firstPage := by
    rw [hstart]
    cases pf <;> simp only [PoolFlags.firstPage, PoolFlags.rangeBytes, pgSize] at hlo hhi ⊢ <;>
      omega
  unfold Mem.getAPageBit
  refine Mem.ensures_read_bind ?_
  rw [hidx]
  refine ensures_bind (Mem.ensures_assert h.debug (fun _ => ?_) trivial)
  rw [if_pos (by rw [hlen]; omega), bitmapSet_one]
  rfl

/-- The page at `v` of the range of `pf` has got its bit and a frame. -/
def GotPage (pf : PoolFlags) (v : Nat) (g : Frames) (s t : MemState) : Prop :=
  ∃ g' l l' u, s.MayUse pf ∧
    Grew pf (s.space pf) (v / 4096) 1 g g' ((s.setLock pf l).setVaddrBitmap pf
      ((s.vaddr pf).vaddrBitmap.putRun true 1 (v / 4096 - pf.firstPage))) u ∧
    t = u.setLock pf l'

theorem FrameInv.returns_getAPageMap (h : FrameInv g s) (hproc : s.MayUse pf) (hv : InRange pf v)
    (l : Lock) :
    Returns (Mem.getAPageMap pf v) (fun _ t => GotPage pf v g s t)
      ((s.setLock pf l).setVaddrBitmap pf
        ((s.vaddr pf).vaddrBitmap.putRun true 1 (v / 4096 - pf.firstPage))) := by
  obtain ⟨hlo, hhi⟩ := hv
  have hpage : pf.firstPage + (v / 4096 - pf.firstPage) = v / 4096 := by omega
  have hinv := (h.setLock pf l).setRun pf 1 (v / 4096 - pf.firstPage)
  have hsp : (s.space pf).Has s (v / 4096) := by
    have hhas := hproc.has (k := v / 4096 - pf.firstPage) (by omega)
    rw [hpage] at hhas
    refine hhas.resolve_right ?_
    cases pf <;> simp only [PoolFlags.firstPage, PoolFlags.rangeBytes] at hlo hhi <;> omega
  have hmarked := marked_putRun (s.setLock pf l) pf 1 (v / 4096 - pf.firstPage) Nat.one_pos
  rw [Nat.add_zero, hpage] at hmarked
  have hcur := space_current ((s.setLock pf l).setVaddrBitmap pf
    ((s.vaddr pf).vaddrBitmap.putRun true 1 (v / 4096 - pf.firstPage))) pf
  rw [space_setVaddrBitmap] at hcur
  unfold Mem.getAPageMap
  refine (hinv.ensures_palloc (fun _ _ => trivial) pf).bind ?_
  rintro _ _ ⟨i, hi, rfl, hbit, rfl⟩
  rw [if_neg (frameAddr_ne_zero pf i)]
  refine ((Prepared.of_palloc hinv hi hbit _).ensures_pageTableAdd (fun _ _ => trivial) hi
    (has_setVaddrBitmap.mpr hsp) hcur hmarked rfl).bind ?_
  rintro _ u ⟨g', hgrew⟩
  refine (returns_lockRelease hgrew.inv.debug pf).bind ?_
  rintro _ _ ⟨l', rfl⟩
  exact ⟨g', l, l', u, hproc, hgrew, rfl⟩

theorem FrameInv.returns_getAPage (h : FrameInv g s) (hv : InRange pf v) :
    Returns (Mem.getAPage pf v) (fun _ t => GotPage pf v g s t) s := by
  unfold Mem.getAPage
  refine (returns_lockAcquire h.debug pf).bind ?_
  rintro _ _ ⟨l, rfl⟩
  refine Mem.ensures_read_bind ?_
  dsimp only
  split
  · next hcond =>
    obtain ⟨hpg, rfl⟩ := hcond
    refine ((h.setLock .user l).returns_getAPageBit (fun _ => hpg) hv 189).bind ?_
    rintro _ _ rfl
    exact h.returns_getAPageMap (fun _ => hpg) hv l
  · split
    · next hcond =>
      obtain ⟨-, rfl⟩ := hcond
      have hproc : s.MayUse .kernel := fun heq => PoolFlags.noConfusion heq
      refine ((h.setLock .kernel l).returns_getAPageBit hproc hv 194).bind ?_
      rintro _ _ rfl
      exact h.returns_getAPageMap hproc hv l
    · exact ensures_bind (ensures_stop trivial)

end GetAPage

/-! ### Runs -/

/-- The pages `vp` to `vp + n - 1`, which `malloc_page` returned to the thread `owner`. -/
structure PageRange where
  pf : PoolFlags
  owner : Nat
  vp : Nat
  n : Nat
deriving DecidableEq, Repr

def PageRange.space (r : PageRange) : Space :=
  match r.pf with
  | .kernel => .kernel
  | .user => .user r.owner

/-- Memory, and the ranges that `malloc_page` has returned and `mfree_page` has not freed since. -/
structure PageWorld where
  mem : MemState
  live : List PageRange

inductive PageAct where
  | mallocPage (pf : PoolFlags) (pgCnt : Nat)
  | mfreePage (r : PageRange)
  | getAPage (pf : PoolFlags) (vaddr : Nat)
  | createUserVaddrBitmap (t : Nat)
  | createPageDir (t : Nat)
  | switchTo (t : Nat)
deriving DecidableEq, Repr

def pageExec (a : PageAct) (w : PageWorld) : Except Stop PageWorld :=
  match a with
  | .mallocPage pf pgCnt => do
    let (v, mem) ← Mem.mallocPage pf pgCnt w.mem
    pure ⟨mem, if v = 0 then w.live else ⟨pf, w.mem.runningThread, v / 4096, pgCnt⟩ :: w.live⟩
  | .mfreePage r => do
    let (_, mem) ← Mem.mfreePage r.pf (4096 * r.vp) r.n w.mem
    pure ⟨mem, w.live.filter (· ≠ r)⟩
  | .getAPage pf vaddr => do
    let (_, mem) ← Mem.getAPage pf vaddr w.mem
    pure ⟨mem, w.live⟩
  | .createUserVaddrBitmap t => do
    let (_, mem) ← Mem.createUserVaddrBitmap t w.mem
    pure ⟨mem, w.live⟩
  | .createPageDir t => do
    -- `process_execute` stores the result in the new thread
    let (pgdir, mem) ← Mem.createPageDir w.mem
    pure ⟨mem.setTask t { mem.task t with pgdir }, w.live⟩
  | .switchTo t => do
    let (_, mem) ← Mem.pageDirActivate t w.mem
    pure ⟨{ mem with runningThread := t }, w.live⟩

/-- The half of the address space that the addresses of `pf` are in; the page table window at its
end does not belong to the kernel's. -/
def RightHalf (pf : PoolFlags) (v : Nat) : Prop :=
  match pf with
  | .kernel => 0xc0000000 ≤ v ∧ v < 0xffc00000
  | .user => v < 0xc0000000

def pageGuard (w : PageWorld) (a : PageAct) : Prop :=
  match a with
  | .mallocPage pf _ => w.mem.MayUse pf
  | .mfreePage r => r ∈ w.live ∧ (r.pf = .user → r.owner = w.mem.runningThread)
  | .getAPage pf v => RightHalf pf v ∧ target w.mem.phys w.mem.cr3 (v / 4096) = none
  | .createUserVaddrBitmap t => t ≠ w.mem.runningThread ∧ (w.mem.task t).pgdir = 0
  | .createPageDir t => t ≠ w.mem.runningThread ∧ (w.mem.task t).pgdir = 0 ∧
    (w.mem.task t).userprogVaddr.vaddrStart = Mem.userVaddrStart ∧
    (w.mem.task t).userprogVaddr.vaddrBitmap.btmpBytesLen =
      (0xc0000000 - Mem.userVaddrStart) / pgSize / 8
  | .switchTo _ => True

/-- The page directory and the page tables that `setup_page` makes, which map the low 1 MiB. -/
structure BootTables (mem : Nat → UInt8) : Prop where
  self : pde mem bootDir 1023 = bootDir + 7
  kernel : ∀ i, 768 ≤ i → i < 1023 → pde mem bootDir i = kernelTable i + 7
  first : pde mem bootDir 0 = 0x101007
  user : ∀ i, 0 < i → i < 768 → ¬ Present (pde mem bootDir i)
  low : ∀ k < 256, load32 mem (kernelTable 768 + 4 * k) = 4096 * k + 7
  rest : ∀ i k, 768 ≤ i → i < 1023 → k < 1024 → (i = 768 → 256 ≤ k) →
    ¬ Present (load32 mem (kernelTable i + 4 * k))

structure AfterMemInit (s : MemState) : Prop where
  debug : s.ndebug = false
  tables : BootTables s.phys
  pools : ∃ mem, s.pool = (memPoolInit 0x2000000 mem).1 ∧
    s.kernelVaddr = (memPoolInit 0x2000000 mem).2
  locks : ∀ pf, s.lock pf = lockInit
  cr3 : s.cr3 = bootDir
  threads : ∀ t, (s.task t).pgdir = 0

def pageSystem : System PageWorld PageAct Stop where
  init w := AfterMemInit w.mem ∧ w.live = []
  guard := pageGuard
  exec := pageExec

/-! ### The state after `mem_init` -/

theorem bit_memPoolInit (mem : Nat → UInt8) (pf : PoolFlags) {i : Nat} (hi : i < 3840) :
    ((memPoolInit 0x2000000 mem).1 pf).poolBitmap.bit i = false := by
  cases pf <;>
  · refine (bit_bitmapInit _ i).trans (if_pos ?_)
    show i < 8 * 480
    omega

theorem bit_kernelVaddr_memPoolInit (mem : Nat → UInt8) {i : Nat} (hi : i < 3840) :
    (memPoolInit 0x2000000 mem).2.vaddrBitmap.bit i = false := by
  refine (bit_bitmapInit _ i).trans (if_pos ?_)
  show i < 8 * 480
  omega

namespace BootTables

variable {mem : Nat → UInt8} {vp : Nat}

theorem entry_eq (h : BootTables mem) (hge : 768 * 1024 ≤ vp) (hlt : vp < 1023 * 1024) :
    entry mem bootDir vp = some (kernelTable (vp / 1024) + 4 * (vp % 1024)) := by
  have hpde := h.kernel (vp / 1024) (by omega) (by omega)
  have hmod := FrameInv.kernelTable_mod (vp / 1024)
  refine entry_eq_some.mpr ⟨?_, ?_⟩
  · rw [hpde, Present]
    omega
  · rw [hpde, FrameInv.frameOf_kernelTable]

theorem target_low (h : BootTables mem) {k : Nat} (hk : k < 256) :
    target mem bootDir (0xc0000 + k) = some (4096 * k) := by
  have hentry := h.entry_eq (show 768 * 1024 ≤ 0xc0000 + k by omega) (by omega)
  rw [show (0xc0000 + k) / 1024 = 768 by omega, show (0xc0000 + k) % 1024 = k by omega] at hentry
  refine target_eq_some.mpr ⟨_, hentry, ?_, ?_⟩
  · rw [h.low k hk, Present]
    omega
  · rw [h.low k hk, frameOf_of_aligned (by omega) (by omega)]

theorem target_rest (h : BootTables mem) (hge : 0xc0100 ≤ vp) (hlt : vp < 1023 * 1024) :
    target mem bootDir vp = none := by
  rw [target_of_entry (h.entry_eq (by omega) hlt),
    if_neg (h.rest (vp / 1024) (vp % 1024) (by omega) (by omega) (by omega) (by omega))]

end BootTables

theorem AfterMemInit.frameInv {s : MemState} (h : AfterMemInit s) :
    FrameInv ⟨fun _ => bootDir, fun _ => none⟩ s := by
  obtain ⟨mem, hpool, hvaddr⟩ := h.pools
  have hdir : ∀ {d}, Frames.IsDir ⟨fun _ => bootDir, fun _ => none⟩ d → d = bootDir := by
    rintro d (hd | ⟨t, hd⟩)
    · exact hd
    · exact hd.symm
  have hnone : ∀ {t}, (s.task t).pgdir ≠ 0 → False := fun ht => ht (h.threads _)
  have hlow : ∀ {sp : Space} {vp f}, sp.Has s vp →
      target s.phys (sp.dir ⟨fun _ => bootDir, fun _ => none⟩) vp = some f →
      vp < 0xc0100 ∧ sp = .kernel ∧ f = 4096 * (vp - 0xc0000) := by
    intro sp vp f hsp hf
    cases sp with
    | user t => exact (hnone hsp.1).elim
    | kernel =>
      change target s.phys bootDir vp = some f at hf
      by_cases hlt : vp < 0xc0100
      · refine ⟨hlt, rfl, ?_⟩
        have hge := hsp.1
        rw [show vp = 0xc0000 + (vp - 0xc0000) by omega, h.tables.target_low (by omega)] at hf
        exact (Option.some.inj hf).symm
      · rw [h.tables.target_rest (by omega) hsp.2] at hf
        exact nomatch hf
  refine ⟨h.debug, ?_, fun pf i hi => ?_, fun f hf => absurd rfl hf, h.cr3, fun _ _ => rfl,
    fun t ht => (hnone ht).elim, fun t _ ht => (hnone ht).elim, fun d hd => ?_,
    fun d hd => ?_, h.tables.first, h.tables.user, fun t ht => (hnone ht).elim,
    fun sp vp f hsp hf => ?_,
    fun f sp vp hf => (nomatch hf), fun k hk => h.tables.target_low hk, fun sp vp hsp hmapped => ?_,
    ?_, fun t ht => (hnone ht).elim⟩
  · rw [hpool]
    exact memPoolInit_laidOut mem
  · rw [hpool, bit_memPoolInit mem pf hi]
    simp
  · rw [hdir hd]
    exact h.tables.self
  · rw [hdir hd]
    exact h.tables.kernel
  · obtain ⟨hlt, -, haddr⟩ := hlow hsp hf
    exact .inl (by omega)
  · obtain ⟨f, hf⟩ := Option.ne_none_iff_exists'.mp hmapped
    obtain ⟨hlt, rfl, -⟩ := hlow hsp hf
    intro k _ hk
    omega
  · rw [hvaddr]
    exact ⟨rfl, rfl⟩

/-! ### What a run keeps -/

structure RangeOk (g : Frames) (s : MemState) (r : PageRange) : Prop where
  pos : 0 < r.n
  start : r.pf.firstPage ≤ r.vp
  allocated : Allocated r.pf r.space r.vp r.n g s

def PageRange.Apart (r r' : PageRange) : Prop :=
  r.space = r'.space → r.vp + r.n ≤ r'.vp ∨ r'.vp + r'.n ≤ r.vp

instance : Std.Symm PageRange.Apart := ⟨fun _ _ h heq => (h heq.symm).symm⟩

def PageInv (w : PageWorld) : Prop :=
  ∃ g, FrameInv g w.mem ∧ (∀ r ∈ w.live, RangeOk g w.mem r) ∧ w.live.Pairwise PageRange.Apart

theorem allocated_setVaddrBitmap {pf pf' : PoolFlags} {sp : Space} {vp n : Nat} {g : Frames}
    {s : MemState} {b : Bitmap} :
    Allocated pf sp vp n g (s.setVaddrBitmap pf' b) ↔ Allocated pf sp vp n g s := by
  have hphys : (s.setVaddrBitmap pf' b).phys = s.phys := by cases pf' <;> rfl
  unfold Allocated
  simp only [has_setVaddrBitmap, hphys]

section Step

variable {g : Frames} {w : PageWorld}

theorem PageInv.of_keeps {g' : Frames} {s : MemState} (hinv : FrameInv g' s)
    (hranges : ∀ r ∈ w.live, RangeOk g w.mem r) (hapart : w.live.Pairwise PageRange.Apart)
    (hkeep : ∀ pf (sp : Space) vp n, Allocated pf sp vp n g w.mem → Allocated pf sp vp n g' s) :
    PageInv ⟨s, w.live⟩ :=
  ⟨g', hinv, fun r hr => ⟨(hranges r hr).pos, (hranges r hr).start,
    hkeep _ _ _ _ (hranges r hr).allocated⟩, hapart⟩

theorem PageInv.mallocPage (h : FrameInv g w.mem) (hranges : ∀ r ∈ w.live, RangeOk g w.mem r)
    (hapart : w.live.Pairwise PageRange.Apart) {pf : PoolFlags} {n : Nat} (hproc : w.mem.MayUse pf)
    {t : PageWorld} (ht : pageExec (.mallocPage pf n) w = .ok t) : PageInv t := by
  obtain ⟨⟨v, mem⟩, hx, ht⟩ := exists_of_bind_eq_ok ht
  obtain rfl := Except.ok.inj ht
  rcases (h.ensures_mallocPage (E := fun _ => True) (fun _ _ => trivial) hproc n).ok hx with
    ⟨rfl, rfl⟩ | ⟨i, g', hpos, -, -, rfl, hhas, hgrew⟩
  · rw [if_pos rfl]
    exact ⟨g, h, hranges, hapart⟩
  · have hne : 4096 * (pf.firstPage + i) ≠ 0 := by
      cases pf <;> simp only [PoolFlags.firstPage] <;> omega
    rw [if_neg hne, show 4096 * (pf.firstPage + i) / 4096 = pf.firstPage + i by omega]
    have hspace : PageRange.space ⟨pf, w.mem.runningThread, pf.firstPage + i, n⟩ =
        w.mem.space pf := by cases pf <;> rfl
    refine ⟨g', hgrew.inv, fun r hr => ?_, List.pairwise_cons.mpr ⟨fun r hr heq => ?_, hapart⟩⟩
    · rcases List.mem_cons.mp hr with rfl | hr
      · refine ⟨hpos, Nat.le_add_right .., ?_⟩
        rw [hspace]
        exact hgrew.allocated (h.setRun pf n i) fun k hk => has_setVaddrBitmap.mpr (hhas k hk)
      · exact ⟨(hranges r hr).pos, (hranges r hr).start,
          hgrew.allocated_of (allocated_setVaddrBitmap.mpr (hranges r hr).allocated)⟩
    · -- a page of both ranges would have been mapped and not mapped before the call
      rw [hspace] at heq
      by_contra hover
      dsimp only at hover
      have hpos' := (hranges r hr).pos
      obtain ⟨k, hk, k', hk', hpage⟩ :
          ∃ k < n, ∃ k' < r.n, pf.firstPage + i + k = r.vp + k' := by
        by_cases hle : pf.firstPage + i ≤ r.vp
        · exact ⟨r.vp - (pf.firstPage + i), by omega, 0, hpos', by omega⟩
        · exact ⟨0, hpos, pf.firstPage + i - r.vp, by omega, by omega⟩
      obtain ⟨-, j, -, hf, -⟩ := allocated_setVaddrBitmap.mpr (hranges r hr).allocated k' hk'
      have hwas := hgrew.was k hk
      rw [hpage, heq, hf] at hwas
      cases hwas

theorem RangeOk.mfreePage_ok {s : MemState} {r : PageRange} (hr : RangeOk g s r) (h : FrameInv g s)
    (howner : r.pf = .user → r.owner = s.runningThread) :
    ∃ g' s' b, r.space = s.space r.pf ∧ Shrank r.space r.vp r.n g g' s s' ∧
      Mem.mfreePage r.pf (4096 * r.vp) r.n s = .ok ((), s'.setVaddrBitmap r.pf b) ∧
      FrameInv g' (s'.setVaddrBitmap r.pf b) := by
  obtain ⟨hpos, hstart, halloc⟩ := hr
  have hspace : r.space = s.space r.pf := by
    unfold PageRange.space
    cases hpf : r.pf with
    | kernel => rfl
    | user => rw [howner hpf]; rfl
  have hvp : r.pf.firstPage + (r.vp - r.pf.firstPage) = r.vp := by omega
  have hproc : s.MayUse r.pf := by
    intro hpf
    have hhas := (halloc 0 hpos).1
    rw [hspace, hpf] at hhas
    exact hhas.1
  rw [hspace] at halloc ⊢
  obtain ⟨g', s', hshrank, hok, hinv⟩ := h.mfreePage_ok hproc hpos
    (i := r.vp - r.pf.firstPage) (by rw [hvp]; exact halloc)
  rw [hvp] at hshrank hok
  exact ⟨g', s', _, rfl, hshrank, hok, hinv⟩

theorem PageInv.mfreePage (h : FrameInv g w.mem) (hranges : ∀ r ∈ w.live, RangeOk g w.mem r)
    (hapart : w.live.Pairwise PageRange.Apart) {r : PageRange} (hr : r ∈ w.live)
    (howner : r.pf = .user → r.owner = w.mem.runningThread)
    {t : PageWorld} (ht : pageExec (.mfreePage r) w = .ok t) : PageInv t := by
  obtain ⟨⟨v, mem⟩, hx, ht⟩ := exists_of_bind_eq_ok ht
  obtain rfl := Except.ok.inj ht
  obtain ⟨g', s', b, -, hshrank, hok, hinv⟩ := (hranges r hr).mfreePage_ok h howner
  obtain rfl := (Prod.mk.inj (Except.ok.inj (hok.symm.trans hx))).2
  refine ⟨g', hinv, fun r' hr' => ?_, hapart.filter _⟩
  obtain ⟨hmem, hne⟩ := List.mem_filter.mp hr'
  refine ⟨(hranges r' hmem).pos, (hranges r' hmem).start, allocated_setVaddrBitmap.mpr
    (hshrank.allocated (hranges r' hmem).allocated fun k hk hin => ?_)⟩
  have hsep := hapart.forall hr hmem (of_decide_eq_true hne).symm
  have := hsep hin.1.symm
  omega

theorem PageInv.getAPage (h : FrameInv g w.mem) (hranges : ∀ r ∈ w.live, RangeOk g w.mem r)
    (hapart : w.live.Pairwise PageRange.Apart) {pf : PoolFlags} {v : Nat} (hv : InRange pf v)
    {t : PageWorld} (ht : pageExec (.getAPage pf v) w = .ok t) : PageInv t := by
  obtain ⟨⟨v', mem⟩, hx, ht⟩ := exists_of_bind_eq_ok ht
  obtain rfl := Except.ok.inj ht
  obtain ⟨g', l, l', u, -, hgrew, rfl⟩ := (h.returns_getAPage hv).ok hx
  refine PageInv.of_keeps (hgrew.inv.setLock pf l') hranges hapart fun pf' sp vp n halloc => ?_
  exact hgrew.allocated_of (allocated_setVaddrBitmap.mpr halloc)

theorem Allocated.setTask {pf : PoolFlags} {sp : Space} {vp n u : Nat} {s : MemState} {task : Task}
    (halloc : Allocated pf sp vp n g s) (hu : (s.task u).pgdir = 0) :
    Allocated pf sp vp n g (s.setTask u task) := by
  intro k hk
  obtain ⟨hsp, hrest⟩ := halloc k hk
  refine ⟨(Space.has_setTask_of_ne ?_).mpr hsp, hrest⟩
  rintro rfl
  exact hsp.1 hu

/-- `create_user_vaddr_bitmap` takes pages of the kernel and stores the range in the thread. -/
theorem FrameInv.returns_createUserVaddrBitmap {s : MemState} (h : FrameInv g s) {u : Nat}
    (hu : (s.task u).pgdir = 0) :
    Returns (Mem.createUserVaddrBitmap u) (fun _ t => ∃ i n g' b s' task,
      Grew .kernel .kernel i n g g' (s.setVaddrBitmap .kernel b) s' ∧ (s'.task u).pgdir = 0 ∧
      task.pgdir = 0 ∧ t = s'.setTask u task) s := by
  unfold Mem.createUserVaddrBitmap
  refine (h.ensures_getKernelPages (fun _ _ => trivial) _).bind ?_
  rintro v t (⟨rfl, rfl⟩ | ⟨hne, i, g', -, -, -, -, -, hgrew, -⟩)
  · refine ensures_bind (Mem.ensures_assert h.debug (fun hfalse => ?_) trivial)
    exact absurd hfalse (by decide)
  · refine ensures_bind (ensures_of_ok (Mem.assert_ok _ (decide_eq_true hne)) ?_)
    refine Mem.ensures_read_bind ?_
    have hpg : (t.task u).pgdir = 0 := by
      obtain ⟨pool, mem, rfl⟩ := hgrew.state
      exact hu
    let vaddrBitmap :=
      bitmapInit ⟨(0xc0000000 - Mem.userVaddrStart) / pgSize / 8, v, fun _ => 0⟩
    exact ⟨_, _, g', _, t, { t.task u with userprogVaddr := ⟨vaddrBitmap, Mem.userVaddrStart⟩ },
      hgrew, hpg, hpg, rfl⟩

theorem PageInv.createUserVaddrBitmap (h : FrameInv g w.mem)
    (hranges : ∀ r ∈ w.live, RangeOk g w.mem r) (hapart : w.live.Pairwise PageRange.Apart) {u : Nat}
    (hu : (w.mem.task u).pgdir = 0) {t : PageWorld}
    (ht : pageExec (.createUserVaddrBitmap u) w = .ok t) : PageInv t := by
  obtain ⟨⟨v, mem⟩, hx, ht⟩ := exists_of_bind_eq_ok ht
  obtain rfl := Except.ok.inj ht
  obtain ⟨i, n, g', b, s', task, hgrew, hpg, htask, rfl⟩ :=
    (h.returns_createUserVaddrBitmap hu).ok hx
  refine PageInv.of_keeps (hgrew.inv.setTask hpg htask) hranges hapart
    fun pf sp vp n halloc => ?_
  exact (hgrew.allocated_of (allocated_setVaddrBitmap.mpr halloc)).setTask hpg

theorem PageInv.createPageDir (h : FrameInv g w.mem)
    (hranges : ∀ r ∈ w.live, RangeOk g w.mem r) (hapart : w.live.Pairwise PageRange.Apart) {u : Nat}
    (hguard : pageGuard w (.createPageDir u)) {t : PageWorld}
    (ht : pageExec (.createPageDir u) w = .ok t) : PageInv t := by
  obtain ⟨hrun, hu, hrange⟩ := hguard
  obtain ⟨⟨v, mem⟩, hx, ht⟩ := exists_of_bind_eq_ok ht
  obtain rfl := Except.ok.inj ht
  rcases (h.ensures_createPageDir (E := fun _ => True) (fun _ _ => trivial)).ok hx with
    ⟨rfl, rfl⟩ | ⟨i, g', d, rfl, hsp, hgrew, hd, hge, hdir, hempty⟩
  · exact PageInv.of_keeps (h.setTask hu rfl) hranges hapart fun _ _ _ _ halloc => halloc.setTask hu
  · obtain ⟨htask, hcur, hspmem⟩ : mem.task = w.mem.task ∧
        mem.runningThread = w.mem.runningThread ∧ Space.kernel.Has mem (0xc0100 + i) := by
      obtain ⟨pool, phys, rfl⟩ := hgrew.state
      exact ⟨rfl, rfl, hsp⟩
    have hdir' : ¬ g'.IsDir d := fun hd' => hdir (hgrew.isDir.mp hd')
    refine PageInv.of_keeps (hgrew.inv.newDir (by rw [htask]; exact hu) (by rw [hcur]; exact hrun)
      hspmem hd hge hdir' hempty rfl (by rw [htask]; exact hrange)) hranges hapart
      fun pf sp vp n halloc k hk => ?_
    have hold := hgrew.allocated_of (allocated_setVaddrBitmap.mpr halloc)
    obtain ⟨hspk, j, hj, hf, hnd⟩ := hold k hk
    have hne : sp ≠ .user u := by
      rintro rfl
      exact hspk.1 (by rw [htask]; exact hu)
    refine ⟨(Space.has_setTask_of_ne hne).mpr hspk, j, hj, ?_, fun hd' => ?_⟩
    · rw [Space.dir_setDir_of_ne hne]
      exact hf
    · -- the new page directory is at a page that was not mapped before
      rcases Frames.isDir_setDir hd' with heq | hd'
      · have hb := frameAddr_bounds pf hj
        have hown := (hgrew.inv.page sp _ _ hspk hf).resolve_left (by omega)
        rw [heq, (hgrew.inv.page .kernel _ d hspmem hd).resolve_left (by omega)] at hown
        obtain ⟨rfl, hvp⟩ := Role.page.inj (Option.some.inj hown)
        obtain ⟨-, _, -, hbefore, -⟩ := allocated_setVaddrBitmap.mpr halloc k hk
        have hwas := hgrew.was 0 Nat.one_pos
        rw [Nat.add_zero, hvp, hbefore] at hwas
        exact nomatch hwas
      · exact hnd hd'

theorem FrameInv.pageDirActivate_ok {s : MemState} (h : FrameInv g s) (t : Nat) :
    Mem.pageDirActivate t s = .ok ((), { s with cr3 := g.dir t }) := by
  unfold Mem.pageDirActivate
  rw [Mem.read_bind]
  dsimp only
  by_cases ht : (s.task t).pgdir = 0
  · rw [if_neg (fun hne => hne ht), h.thread t ht]
    rfl
  · obtain ⟨hmod, hhas, -, hdir⟩ := h.process t ht
    have hlt := has_div_lt hhas
    have hok := Mem.addrV2p_ok (h.selfMapped h.cr3_isDir) (v := (s.task t).pgdir) (by omega)
      ((h.target_kernel h.cr3_isDir hhas).trans hdir)
    rw [hmod, Nat.add_zero] at hok
    rw [if_pos ht, bind_of_ok hok]
    rfl

theorem PageInv.switchTo (h : FrameInv g w.mem) (hranges : ∀ r ∈ w.live, RangeOk g w.mem r)
    (hapart : w.live.Pairwise PageRange.Apart) {u : Nat} {t : PageWorld}
    (ht : pageExec (.switchTo u) w = .ok t) : PageInv t := by
  obtain ⟨⟨v, mem⟩, hx, ht⟩ := exists_of_bind_eq_ok ht
  obtain rfl := Except.ok.inj ht
  rw [h.pageDirActivate_ok u] at hx
  obtain rfl := (Prod.mk.inj (Except.ok.inj hx)).2
  exact PageInv.of_keeps (h.switch u) hranges hapart fun _ _ _ _ halloc => halloc

end Step

/-- The condition on `get_a_page`: the bitmap has a bit for the address. -/
def PageAct.AddressInRange (_ : PageWorld) : PageAct → Prop
  | .getAPage pf v => InRange pf v
  | _ => True

theorem PageInv.step {w t : PageWorld} {a : PageAct} (h : PageInv w) (ha : a.AddressInRange w)
    (hstep : pageSystem.Step w a t) : PageInv t := by
  obtain ⟨g, hinv, hranges, hapart⟩ := h
  obtain ⟨hguard, ht⟩ := hstep
  cases a with
  | mallocPage pf n => exact .mallocPage hinv hranges hapart hguard ht
  | mfreePage r => exact .mfreePage hinv hranges hapart hguard.1 hguard.2 ht
  | getAPage pf v => exact .getAPage hinv hranges hapart ha ht
  | createUserVaddrBitmap u => exact .createUserVaddrBitmap hinv hranges hapart hguard.2 ht
  | createPageDir u => exact .createPageDir hinv hranges hapart hguard ht
  | switchTo u => exact .switchTo hinv hranges hapart ht

theorem PageInv.init {w : PageWorld} (h : pageSystem.init w) : PageInv w := by
  obtain ⟨hboot, hlive⟩ := h
  refine ⟨_, hboot.frameInv, ?_, ?_⟩
  · rw [hlive]
    exact fun r hr => absurd hr List.not_mem_nil
  · rw [hlive]
    exact List.Pairwise.nil

end OriginOS
