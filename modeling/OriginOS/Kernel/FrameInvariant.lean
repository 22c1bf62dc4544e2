import OriginOS.Kernel.MemorySteps

/-! The invariant of physical memory: every frame of the pools has at most one use.

`Frames` says what each frame is used for, and `FrameInv` ties that to the bitmaps of the pools and
to the page tables in memory. Each part of an operation that changes a use has a lemma here. -/

namespace OriginOS

open Lib

/-- The page directory that `setup_page` makes. -/
def bootDir : Nat := 0x100000

/-- The page table that `setup_page` makes for entry `i` of the kernel's half. -/
def kernelTable (i : Nat) : Nat := 0x101000 + (i - 768) * 4096

/-- The kernel's half, which all page directories share, or the user's half of a process. -/
inductive Space where
  | kernel
  | user (t : Nat)
deriving DecidableEq, Repr

/-- What a frame of a pool is used for: `palloc` has just returned it, it is the page table of entry
`i` of process `t`, or it is mapped at a page of a space. -/
inductive Role where
  | reserved
  | table (t i : Nat)
  | page (sp : Space) (vp : Nat)
deriving DecidableEq, Repr

/-- The page directory of each thread, and the use of each frame. -/
structure Frames where
  dir : Nat → Nat
  own : Nat → Option Role

namespace Frames

def IsDir (g : Frames) (d : Nat) : Prop := d = bootDir ∨ ∃ t, g.dir t = d

def setOwn (g : Frames) (f : Nat) (r : Option Role) : Frames :=
  { g with own := Function.update g.own f r }

theorem own_setOwn (g : Frames) (f : Nat) (r : Option Role) (f' : Nat) :
    (g.setOwn f r).own f' = if f' = f then r else g.own f' := Function.update_apply ..

theorem own_setOwn_self (g : Frames) (f : Nat) (r : Option Role) : (g.setOwn f r).own f = r :=
  Function.update_self ..

theorem own_setOwn_of_ne (g : Frames) {f f' : Nat} (h : f' ≠ f) (r : Option Role) :
    (g.setOwn f r).own f' = g.own f' := Function.update_of_ne h ..

structure Plain (g : Frames) (f : Nat) : Prop where
  aligned : f % 4096 = 0
  notDir : ¬ g.IsDir f
  notTable : ∀ t i, g.own f ≠ some (.table t i)
  notBoot : f < 0x100000 ∨ 0x200000 ≤ f

end Frames

namespace Space

/-- The page directory through which the space is looked at. -/
def dir (g : Frames) : Space → Nat
  | .kernel => bootDir
  | .user t => g.dir t

def Has (s : MemState) (sp : Space) (vp : Nat) : Prop :=
  match sp with
  | .kernel => 768 * 1024 ≤ vp ∧ vp < 1023 * 1024
  | .user t => (s.task t).pgdir ≠ 0 ∧ vp < 768 * 1024

/-- The bit of the page in the bitmap of the space's range is set, if the range has the page. -/
def Marked (s : MemState) (sp : Space) (vp : Nat) : Prop :=
  match sp with
  | .kernel => ∀ k < 3840, vp = 0xc0100 + k → s.kernelVaddr.vaddrBitmap.bit k = true
  | .user t => ∀ k < 753592, vp = 0x8048 + k →
    (s.task t).userprogVaddr.vaddrBitmap.bit k = true

theorem has_low (s : MemState) {k : Nat} (hk : k < 256) : Space.kernel.Has s (0xc0000 + k) := by
  constructor <;> omega

end Space

structure FrameInv (g : Frames) (s : MemState) : Prop where
  debug : s.ndebug = false
  laidOut : PoolsLaidOut s.pool
  bit : ∀ pf i, i < 3840 → ((s.pool pf).poolBitmap.bit i = true ↔ g.own (frameAddr pf i) ≠ none)
  pool : ∀ f, g.own f ≠ none → ∃ pf i, i < 3840 ∧ f = frameAddr pf i
  cr3 : s.cr3 = g.dir s.runningThread
  thread : ∀ t, (s.task t).pgdir = 0 → g.dir t = bootDir
  process : ∀ t, (s.task t).pgdir ≠ 0 → (s.task t).pgdir % 4096 = 0 ∧
    Space.kernel.Has s ((s.task t).pgdir / 4096) ∧ 0x200000 ≤ g.dir t ∧
    target s.phys bootDir ((s.task t).pgdir / 4096) = some (g.dir t)
  pgdirInj : ∀ t u, (s.task t).pgdir ≠ 0 → (s.task t).pgdir = (s.task u).pgdir → t = u
  selfMap : ∀ d, g.IsDir d → pde s.phys d 1023 = d + 7
  kernelPde : ∀ d, g.IsDir d → ∀ i, 768 ≤ i → i < 1023 → pde s.phys d i = kernelTable i + 7
  bootFirst : pde s.phys bootDir 0 = 0x101007
  bootRest : ∀ i, 0 < i → i < 768 → ¬ Present (pde s.phys bootDir i)
  table : ∀ t, (s.task t).pgdir ≠ 0 → ∀ i < 768, Present (pde s.phys (g.dir t) i) →
    g.own (frameOf (pde s.phys (g.dir t) i)) = some (.table t i)
  page : ∀ (sp : Space) vp f, sp.Has s vp → target s.phys (sp.dir g) vp = some f →
    f < 0x100000 ∨ g.own f = some (.page sp vp)
  mapped : ∀ f (sp : Space) vp, g.own f = some (.page sp vp) →
    sp.Has s vp ∧ target s.phys (sp.dir g) vp = some f
  low : ∀ k < 256, target s.phys bootDir (0xc0000 + k) = some (4096 * k)
  marked : ∀ (sp : Space) vp, sp.Has s vp → target s.phys (sp.dir g) vp ≠ none → sp.Marked s vp
  kernelRange : s.kernelVaddr.vaddrStart = kHeapStart ∧
    s.kernelVaddr.vaddrBitmap.btmpBytesLen = 480
  userRange : ∀ t, (s.task t).pgdir ≠ 0 →
    (s.task t).userprogVaddr.vaddrStart = 0x8048000 ∧
    (s.task t).userprogVaddr.vaddrBitmap.btmpBytesLen = 94199

namespace FrameInv

variable {g : Frames} {s : MemState}

/-! ### Where things are -/

theorem own_bounds (h : FrameInv g s) {f : Nat} (hf : g.own f ≠ none) :
    0x200000 ≤ f ∧ f < 0x2000000 ∧ f % 4096 = 0 := by
  obtain ⟨pf, i, hi, rfl⟩ := h.pool f hf
  unfold frameAddr pgSize
  cases pf <;> simp only [PoolFlags.start] <;> omega

theorem own_dir (h : FrameInv g s) {t : Nat} (ht : (s.task t).pgdir ≠ 0) :
    g.own (g.dir t) = some (.page .kernel ((s.task t).pgdir / 4096)) := by
  obtain ⟨-, hsp, hge, htarget⟩ := h.process t ht
  exact (h.page .kernel _ _ hsp htarget).resolve_left (by omega)

theorem isDir_cases (h : FrameInv g s) {d : Nat} (hd : g.IsDir d) :
    d = bootDir ∨ ∃ t, (s.task t).pgdir ≠ 0 ∧ g.dir t = d := by
  rcases hd with hd | ⟨t, rfl⟩
  · exact .inl hd
  · by_cases ht : (s.task t).pgdir = 0
    · exact .inl (h.thread t ht)
    · exact .inr ⟨t, ht, rfl⟩

theorem dir_bounds (h : FrameInv g s) {d : Nat} (hd : g.IsDir d) :
    d % 4096 = 0 ∧ (d = 0x100000 ∨ 0x200000 ≤ d ∧ d < 0x2000000) := by
  rcases h.isDir_cases hd with rfl | ⟨t, ht, rfl⟩
  · exact ⟨by decide, .inl rfl⟩
  · have hb := h.own_bounds (f := g.dir t) (by rw [h.own_dir ht]; exact Option.some_ne_none _)
    exact ⟨hb.2.2, .inr ⟨hb.1, hb.2.1⟩⟩

theorem isDir_of_page (h : FrameInv g s) {f : Nat} {sp : Space} {vp : Nat}
    (hf : g.own f = some (.page sp vp)) (hd : g.IsDir f) :
    sp = .kernel ∧ ∃ t, (s.task t).pgdir ≠ 0 ∧ vp = (s.task t).pgdir / 4096 := by
  rcases h.isDir_cases hd with rfl | ⟨t, ht, rfl⟩
  · have hb := h.own_bounds (f := bootDir) (by rw [hf]; exact Option.some_ne_none _)
    exact absurd hb.1 (by decide)
  · rw [h.own_dir ht] at hf
    obtain ⟨rfl, rfl⟩ := Role.page.inj (Option.some.inj hf)
    exact ⟨rfl, t, ht, rfl⟩

theorem not_isDir_of_own (h : FrameInv g s) {f : Nat} {r : Role} (hf : g.own f = some r)
    (hr : ∀ sp vp, r ≠ .page sp vp) : ¬ g.IsDir f := by
  intro hd
  rcases h.isDir_cases hd with rfl | ⟨t, ht, rfl⟩
  · have hb := h.own_bounds (f := bootDir) (by rw [hf]; exact Option.some_ne_none _)
    exact absurd hb.1 (by decide)
  · rw [h.own_dir ht] at hf
    exact hr _ _ (Option.some.inj hf).symm

theorem space_isDir (g : Frames) (sp : Space) : g.IsDir (sp.dir g) := by
  cases sp with
  | kernel => exact .inl rfl
  | user t => exact .inr ⟨t, rfl⟩

theorem cr3_isDir (h : FrameInv g s) : g.IsDir s.cr3 := .inr ⟨_, h.cr3.symm⟩

theorem selfMapped (h : FrameInv g s) {d : Nat} (hd : g.IsDir d) : SelfMapped s.phys d := by
  have hmod := (h.dir_bounds hd).1
  have hself := h.selfMap d hd
  refine ⟨?_, ?_⟩
  · rw [hself, Present]
    omega
  · rw [hself]
    exact frameOf_of_aligned hmod (by decide)

theorem kernelTable_mod (i : Nat) : kernelTable i % 4096 = 0 := by
  unfold kernelTable
  omega

theorem frameOf_kernelTable (i : Nat) : frameOf (kernelTable i + 7) = kernelTable i :=
  frameOf_of_aligned (kernelTable_mod i) (by decide)

/-- The page table entries of the kernel's half are the same in every page directory. -/
theorem entry_kernel (h : FrameInv g s) {d vp : Nat} (hd : g.IsDir d)
    (hvp : Space.kernel.Has s vp) :
    entry s.phys d vp = some (kernelTable (vp / 1024) + 4 * (vp % 1024)) := by
  obtain ⟨hge, hlt⟩ := hvp
  have hpde := h.kernelPde d hd (vp / 1024) (by omega) (by omega)
  have hmod := kernelTable_mod (vp / 1024)
  refine entry_eq_some.mpr ⟨?_, ?_⟩
  · rw [hpde, Present]
    omega
  · rw [hpde, frameOf_kernelTable]

theorem target_kernel (h : FrameInv g s) {d vp : Nat} (hd : g.IsDir d)
    (hvp : Space.kernel.Has s vp) : target s.phys d vp = target s.phys bootDir vp := by
  unfold target
  rw [h.entry_kernel hd hvp, h.entry_kernel (.inl rfl) hvp]

theorem entry_cases (h : FrameInv g s) {sp : Space} {vp e : Nat} (hsp : sp.Has s vp)
    (he : entry s.phys (sp.dir g) vp = some e) :
    ∃ b, b % 4096 = 0 ∧ e = b + 4 * (vp % 1024) ∧
      ((sp = .kernel ∧ b = kernelTable (vp / 1024)) ∨
        ∃ t, sp = .user t ∧ g.own b = some (.table t (vp / 1024))) := by
  cases sp with
  | kernel =>
    rw [Space.dir, h.entry_kernel (.inl rfl) hsp] at he
    exact ⟨_, kernelTable_mod _, (Option.some.inj he).symm, .inl ⟨rfl, rfl⟩⟩
  | user t =>
    obtain ⟨hp, rfl⟩ := entry_eq_some.mp he
    obtain ⟨ht, hlt⟩ := hsp
    exact ⟨_, frameOf_mod _, rfl, .inr ⟨t, rfl, h.table t ht _ (by omega) hp⟩⟩

theorem entry_inj (h : FrameInv g s) {sp sp' : Space} {vp vp' e : Nat} (hsp : sp.Has s vp)
    (hsp' : sp'.Has s vp') (he : entry s.phys (sp.dir g) vp = some e)
    (he' : entry s.phys (sp'.dir g) vp' = some e) : sp = sp' ∧ vp = vp' := by
  obtain ⟨b, hb, rfl, hrole⟩ := h.entry_cases hsp he
  obtain ⟨b', hb', heq, hrole'⟩ := h.entry_cases hsp' he'
  obtain rfl : b = b' := by omega
  have hrest : vp % 1024 = vp' % 1024 := by omega
  rcases hrole with ⟨rfl, hk⟩ | ⟨t, rfl, ht⟩ <;> rcases hrole' with ⟨rfl, hk'⟩ | ⟨t', rfl, ht'⟩
  · obtain ⟨hge, hlt⟩ := hsp
    obtain ⟨hge', hlt'⟩ := hsp'
    unfold kernelTable at hk hk'
    exact ⟨rfl, by omega⟩
  · have hbound := h.own_bounds (f := b) (by rw [ht']; exact Option.some_ne_none _)
    obtain ⟨hge, hlt⟩ := hsp
    unfold kernelTable at hk
    omega
  · have hbound := h.own_bounds (f := b) (by rw [ht]; exact Option.some_ne_none _)
    obtain ⟨hge, hlt⟩ := hsp'
    unfold kernelTable at hk'
    omega
  · obtain ⟨rfl, hdiv⟩ := Role.table.inj (Option.some.inj (ht.symm.trans ht'))
    exact ⟨rfl, by omega⟩

theorem frame_unique (h : FrameInv g s) {f f' : Nat} {sp : Space} {vp : Nat}
    (hf : g.own f = some (.page sp vp)) (hf' : g.own f' = some (.page sp vp)) : f = f' :=
  Option.some.inj ((h.mapped f sp vp hf).2.symm.trans (h.mapped f' sp vp hf').2)

/-! ### Changes -/

/-- What a change of the memory, the pools and the uses has to keep, when it leaves the page
directories alone. -/
theorem update (h : FrameInv g s) (own : Nat → Option Role) (mem : Nat → UInt8)
    (pool : PoolFlags → Pool) (hlaid : PoolsLaidOut pool)
    (hbit : ∀ pf i, i < 3840 → ((pool pf).poolBitmap.bit i = true ↔ own (frameAddr pf i) ≠ none))
    (hpool : ∀ f, own f ≠ none → ∃ pf i, i < 3840 ∧ f = frameAddr pf i)
    (hpde : ∀ d, g.IsDir d → ∀ i < 1024, pde mem d i = pde s.phys d i)
    (htable : ∀ f t i, g.own f = some (.table t i) → own f = some (.table t i))
    (hpage : ∀ (sp : Space) vp f, sp.Has s vp → target mem (sp.dir g) vp = some f →
      f < 0x100000 ∨ own f = some (.page sp vp))
    (hmapped : ∀ f (sp : Space) vp, own f = some (.page sp vp) →
      sp.Has s vp ∧ target mem (sp.dir g) vp = some f)
    (hlow : ∀ k < 256, target mem bootDir (0xc0000 + k) = target s.phys bootDir (0xc0000 + k))
    (hpgdir : ∀ t, (s.task t).pgdir ≠ 0 → target mem bootDir ((s.task t).pgdir / 4096) =
      target s.phys bootDir ((s.task t).pgdir / 4096))
    (hmarked : ∀ (sp : Space) vp, sp.Has s vp → target mem (sp.dir g) vp ≠ none →
      sp.Marked s vp) :
    FrameInv { g with own } ((s.setPool pool).setPhys mem) where
  debug := h.debug
  laidOut := hlaid
  bit := hbit
  pool := hpool
  cr3 := h.cr3
  thread := h.thread
  process t ht := by
    obtain ⟨hmod, hhas, hge, htarget⟩ := h.process t ht
    exact ⟨hmod, hhas, hge, (hpgdir t ht).trans htarget⟩
  pgdirInj := h.pgdirInj
  selfMap d hd := (hpde d hd 1023 (by decide)).trans (h.selfMap d hd)
  kernelPde d hd i hge hlt := (hpde d hd i (by omega)).trans (h.kernelPde d hd i hge hlt)
  bootFirst := (hpde bootDir (.inl rfl) 0 (by omega)).trans h.bootFirst
  bootRest i hi hi' hp := by
    change Present (pde mem bootDir i) at hp
    rw [hpde bootDir (.inl rfl) i (by omega)] at hp
    exact h.bootRest i hi hi' hp
  table t ht i hi hp := by
    have heq := hpde (g.dir t) (.inr ⟨t, rfl⟩) i (by omega)
    change Present (pde mem (g.dir t) i) at hp
    show own (frameOf (pde mem (g.dir t) i)) = _
    rw [heq] at hp ⊢
    exact htable _ t i (h.table t ht i hi hp)
  page := hpage
  mapped := hmapped
  low k hk := (hlow k hk).trans (h.low k hk)
  marked := hmarked
  kernelRange := h.kernelRange
  userRange := h.userRange

theorem bit_setOwn (h : FrameInv g s) (pf : PoolFlags) {i : Nat} (hi : i < 3840) {value : Bool}
    {r : Option Role} (hr : value = true ↔ r ≠ none) (pf' : PoolFlags) (j : Nat) (hj : j < 3840) :
    (Function.update s.pool pf ((s.pool pf).put i value) pf').poolBitmap.bit j = true ↔
      (g.setOwn (frameAddr pf i) r).own (frameAddr pf' j) ≠ none := by
  rw [Pool.bit_update, Frames.own_setOwn]
  by_cases heq : pf' = pf ∧ j = i
  · obtain ⟨rfl, rfl⟩ := heq
    rw [if_pos ⟨rfl, rfl⟩, if_pos rfl]
    exact hr
  · rw [if_neg heq, if_neg fun he => heq (frameAddr_inj hj hi he)]
    exact h.bit pf' j hj

theorem pool_setOwn (h : FrameInv g s) (pf : PoolFlags) {i : Nat} (hi : i < 3840)
    (r : Option Role) (f : Nat) (hf : (g.setOwn (frameAddr pf i) r).own f ≠ none) :
    ∃ pf i, i < 3840 ∧ f = frameAddr pf i := by
  by_cases heq : f = frameAddr pf i
  · exact ⟨pf, i, hi, heq⟩
  · rw [g.own_setOwn_of_ne heq] at hf
    exact h.pool f hf

theorem palloc (h : FrameInv g s) {pf : PoolFlags} {i : Nat} (hi : i < 3840)
    (hbit : (s.pool pf).poolBitmap.bit i = false) :
    g.own (frameAddr pf i) = none ∧
    FrameInv (g.setOwn (frameAddr pf i) (some .reserved))
      (s.setPool (Function.update s.pool pf ((s.pool pf).put i true))) := by
  have hnone : g.own (frameAddr pf i) = none := by
    by_contra hne
    rw [(h.bit pf i hi).mpr hne] at hbit
    exact Bool.noConfusion hbit
  have hkeep : ∀ {f r}, g.own f = some r →
      (g.setOwn (frameAddr pf i) (some .reserved)).own f = some r := by
    intro f r hf
    rw [g.own_setOwn_of_ne, hf]
    rintro rfl
    rw [hnone] at hf
    exact nomatch hf
  refine ⟨hnone, h.update _ s.phys _ (h.laidOut.put pf i true)
    (h.bit_setOwn pf hi (by simp)) (h.pool_setOwn pf hi _) (fun _ _ _ _ => rfl)
    (fun f t i hf => hkeep hf) (fun sp vp f hsp hf => ?_) (fun f sp vp hf => ?_) (fun _ _ => rfl)
    (fun _ _ => rfl) h.marked⟩
  · exact (h.page sp vp f hsp hf).imp_right hkeep
  · refine h.mapped f sp vp ?_
    rw [Function.update_apply] at hf
    split at hf
    · exact nomatch hf
    · exact hf

section Entry

variable {sp : Space} {vp e : Nat}

theorem pde_store (h : FrameInv g s) (hsp : sp.Has s vp)
    (he : entry s.phys (sp.dir g) vp = some e) (w : Nat) {d : Nat} (hd : g.IsDir d) {i : Nat}
    (hi : i < 1024) : pde (store32 s.phys e w) d i = pde s.phys d i := by
  obtain ⟨b, hb, rfl, hrole⟩ := h.entry_cases hsp he
  have hdb := h.dir_bounds hd
  have hne : b ≠ d := by
    rintro rfl
    rcases hrole with ⟨rfl, hk⟩ | ⟨t, rfl, ht⟩
    · obtain ⟨hge, hlt⟩ := hsp
      unfold kernelTable at hk
      omega
    · exact h.not_isDir_of_own ht (fun _ _ => nofun) hd
  exact load32_store32_of_disjoint (by omega)

theorem target_store_of_ne (h : FrameInv g s) (hsp : sp.Has s vp)
    (he : entry s.phys (sp.dir g) vp = some e) (w : Nat) {sp' : Space} {vp' : Nat}
    (hsp' : sp'.Has s vp') (hne : ¬ (sp' = sp ∧ vp' = vp)) :
    target (store32 s.phys e w) (sp'.dir g) vp' = target s.phys (sp'.dir g) vp' := by
  have hvp' : vp' / 1024 < 1024 := by
    cases sp' with
    | kernel => have := hsp'.2; omega
    | user t => have := hsp'.2; omega
  refine target_congr (h.pde_store hsp he w (space_isDir g sp') hvp') fun e' he' => ?_
  obtain ⟨b, hb, rfl, -⟩ := h.entry_cases hsp he
  obtain ⟨b', hb', rfl, -⟩ := h.entry_cases hsp' he'
  refine load32_store32_of_ne (by omega) (by omega) fun heq => hne ?_
  rw [heq] at he'
  exact h.entry_inj hsp' hsp he' he

theorem target_store_self (h : FrameInv g s) (hsp : sp.Has s vp)
    (he : entry s.phys (sp.dir g) vp = some e) {w : Nat} (hw : w < 2 ^ 32) :
    target (store32 s.phys e w) (sp.dir g) vp = if Present w then some (frameOf w) else none := by
  have hvp : vp / 1024 < 1024 := by
    cases sp with
    | kernel => have := hsp.2; omega
    | user t => have := hsp.2; omega
  rw [target_of_entry ((entry_congr (h.pde_store hsp he w (space_isDir g sp) hvp)).trans he),
    load32_store32_self hw]

theorem map (h : FrameInv g s) (hsp : sp.Has s vp) (he : entry s.phys (sp.dir g) vp = some e)
    (hnone : target s.phys (sp.dir g) vp = none) {p : Nat} (hp : g.own p = some .reserved)
    (hmarked : sp.Marked s vp) :
    FrameInv (g.setOwn p (some (.page sp vp)))
      (s.setPhys (store32 s.phys e (Mem.pageEntry p))) ∧
    target (store32 s.phys e (Mem.pageEntry p)) (sp.dir g) vp = some p := by
  have hb := h.own_bounds (f := p) (by rw [hp]; exact Option.some_ne_none _)
  have hw : Mem.pageEntry p < 2 ^ 32 := by
    rw [Mem.pageEntry_eq hb.2.2]
    omega
  have hself : target (store32 s.phys e (Mem.pageEntry p)) (sp.dir g) vp = some p := by
    rw [h.target_store_self hsp he hw, if_pos (Mem.present_pageEntry hb.2.2),
      Mem.frameOf_pageEntry hb.2.2]
  have hother := fun {sp' : Space} {vp' : Nat} (hsp' : sp'.Has s vp')
    (hold : target s.phys (sp'.dir g) vp' ≠ none) =>
    h.target_store_of_ne hsp he (Mem.pageEntry p) hsp'
      fun heq => hold (by rw [heq.1, heq.2, hnone])
  have hown : ∀ {f r}, g.own f = some r → r ≠ .reserved →
      (g.setOwn p (some (.page sp vp))).own f = some r := by
    intro f r hf hr
    rw [g.own_setOwn_of_ne, hf]
    rintro rfl
    exact hr (Option.some.inj (hf.symm.trans hp))
  have hiff : ∀ f, (g.setOwn p (some (.page sp vp))).own f ≠ none ↔ g.own f ≠ none := by
    intro f
    rw [Frames.own_setOwn]
    split
    · next heq => rw [heq, hp]; simp
    · exact Iff.rfl
  refine ⟨h.update _ _ s.pool h.laidOut
    (fun pf i hi => (h.bit pf i hi).trans (hiff _).symm) (fun f hf => h.pool f ((hiff f).mp hf))
    (fun d hd i hi => h.pde_store hsp he _ hd hi) (fun f t i hf => hown hf nofun)
    (fun sp' vp' f hsp' hf => ?_) (fun f sp' vp' hf => ?_) (fun k hk => ?_) (fun t ht => ?_)
    fun sp' vp' hsp' hne => ?_, hself⟩
  · by_cases heq : sp' = sp ∧ vp' = vp
    · obtain ⟨rfl, rfl⟩ := heq
      obtain rfl := Option.some.inj (hself.symm.trans hf)
      exact .inr (g.own_setOwn_self ..)
    · rw [h.target_store_of_ne hsp he _ hsp' heq] at hf
      exact (h.page sp' vp' f hsp' hf).imp_right fun hf => hown hf nofun
  · rw [Function.update_apply] at hf
    split at hf
    · next heq =>
      obtain ⟨rfl, rfl⟩ := Role.page.inj (Option.some.inj hf)
      exact ⟨hsp, hself.trans (congrArg some heq.symm)⟩
    · obtain ⟨hsp', hold⟩ := h.mapped f sp' vp' hf
      exact ⟨hsp', (hother hsp' (by rw [hold]; exact Option.some_ne_none f)).trans hold⟩
  · have hkeep := hother (Space.has_low s hk)
      (by rw [Space.dir, h.low k hk]; exact Option.some_ne_none _)
    exact hkeep
  · obtain ⟨-, hhas, -, htarget⟩ := h.process t ht
    have hkeep := hother hhas (by rw [Space.dir, htarget]; exact Option.some_ne_none _)
    exact hkeep
  · by_cases heq : sp' = sp ∧ vp' = vp
    · rw [heq.1, heq.2]
      exact hmarked
    · rw [h.target_store_of_ne hsp he _ hsp' heq] at hne
      exact h.marked sp' vp' hsp' hne

theorem unmap (h : FrameInv g s) (hsp : sp.Has s vp) (he : entry s.phys (sp.dir g) vp = some e)
    {pf : PoolFlags} {i : Nat} (hi : i < 3840)
    (hf : target s.phys (sp.dir g) vp = some (frameAddr pf i))
    (hdir : ¬ g.IsDir (frameAddr pf i)) {w : Nat} (hw : w < 2 ^ 32) (hnot : ¬ Present w) :
    FrameInv (g.setOwn (frameAddr pf i) none)
      ((s.setPool (Function.update s.pool pf ((s.pool pf).put i false))).setPhys
        (store32 s.phys e w)) ∧
    target (store32 s.phys e w) (sp.dir g) vp = none := by
  have hge : 0x200000 ≤ frameAddr pf i := by
    unfold frameAddr pgSize
    cases pf <;> simp only [PoolFlags.start] <;> omega
  have hown := (h.page sp vp _ hsp hf).resolve_left (by omega)
  have hself : target (store32 s.phys e w) (sp.dir g) vp = none := by
    rw [h.target_store_self hsp he hw, if_neg hnot]
  have hkeep : ∀ {f r}, g.own f = some r → r ≠ .page sp vp →
      (g.setOwn (frameAddr pf i) none).own f = some r := by
    intro f r hr hne
    rw [g.own_setOwn_of_ne, hr]
    rintro rfl
    exact hne (Option.some.inj (hr.symm.trans hown))
  refine ⟨h.update _ _ _ (h.laidOut.put pf i false) (h.bit_setOwn pf hi (by simp))
    (h.pool_setOwn pf hi _) (fun d hd j hj => h.pde_store hsp he _ hd hj)
    (fun f t j hr => hkeep hr (by rintro ⟨⟩)) (fun sp' vp' f hsp' hf' => ?_)
    (fun f sp' vp' hr => ?_) (fun k hk => ?_) (fun t ht => ?_) fun sp' vp' hsp' hne => ?_, hself⟩
  · by_cases heq : sp' = sp ∧ vp' = vp
    · rw [heq.1, heq.2, hself] at hf'
      cases hf'
    · rw [h.target_store_of_ne hsp he _ hsp' heq] at hf'
      refine (h.page sp' vp' f hsp' hf').imp_right fun hr => hkeep hr fun hrole => heq ?_
      exact Role.page.inj hrole
  · rw [Function.update_apply] at hr
    split at hr
    · cases hr
    · next hne =>
      obtain ⟨hsp', hold⟩ := h.mapped f sp' vp' hr
      refine ⟨hsp', (h.target_store_of_ne hsp he w hsp' fun heq => hne ?_).trans hold⟩
      rw [heq.1, heq.2, hf] at hold
      exact (Option.some.inj hold).symm
  · have hkeep := h.target_store_of_ne hsp he w (Space.has_low s hk) fun heq => ?_
    · exact hkeep
    · have hlow := h.low k hk
      rw [heq.2, show bootDir = sp.dir g by rw [← heq.1]; rfl, hf] at hlow
      have := Option.some.inj hlow
      omega
  · obtain ⟨-, hhas, -, htarget⟩ := h.process t ht
    have hkeep := h.target_store_of_ne hsp he w hhas fun heq => hdir ?_
    · exact hkeep
    · rw [heq.2, show bootDir = sp.dir g by rw [← heq.1]; rfl, hf] at htarget
      exact .inr ⟨t, (Option.some.inj htarget).symm⟩
  · by_cases heq : sp' = sp ∧ vp' = vp
    · rw [heq.1, heq.2] at hne
      exact absurd hself hne
    · rw [h.target_store_of_ne hsp he _ hsp' heq] at hne
      exact h.marked sp' vp' hsp' hne

end Entry

/-! ### Plain frames -/

theorem has_div_lt {sp : Space} {vp : Nat} (hsp : sp.Has s vp) : vp / 1024 < 1023 := by
  cases sp with
  | kernel => have := hsp.2; omega
  | user t => have := hsp.2; omega

section Plain

variable {f : Nat} {mem : Nat → UInt8}

theorem plain_of_page (h : FrameInv g s) {sp : Space} {vp : Nat}
    (hf : g.own f = some (.page sp vp)) (hdir : ¬ g.IsDir f) : g.Plain f := by
  have hb := h.own_bounds (f := f) (by rw [hf]; exact Option.some_ne_none _)
  refine ⟨hb.2.2, hdir, fun t i ht => ?_, .inr hb.1⟩
  rw [hf] at ht
  exact nomatch ht

theorem pde_of_agree (h : FrameInv g s) (hf : g.Plain f)
    (hagree : ∀ a, a < f ∨ f + 4096 ≤ a → mem a = s.phys a) {d : Nat} (hd : g.IsDir d) {i : Nat}
    (hi : i < 1024) : pde mem d i = pde s.phys d i := by
  have hmod := (h.dir_bounds hd).1
  have haligned := hf.aligned
  have hne : f ≠ d := fun heq => hf.notDir (heq ▸ hd)
  exact load32_congr fun b hb hb' => hagree b (by omega)

theorem entry_of_plain (h : FrameInv g s) (hf : g.Plain f) {sp : Space} {vp e : Nat}
    (hsp : sp.Has s vp) (he : entry s.phys (sp.dir g) vp = some e) : e + 4 ≤ f ∨ f + 4096 ≤ e := by
  obtain ⟨b, hb, rfl, hrole⟩ := h.entry_cases hsp he
  have haligned := hf.aligned
  have hne : f ≠ b := by
    rintro rfl
    rcases hrole with ⟨rfl, hk⟩ | ⟨t, rfl, ht⟩
    · have hboot := hf.notBoot
      obtain ⟨hge, hlt⟩ := hsp
      unfold kernelTable at hk
      omega
    · exact hf.notTable _ _ ht
  omega

theorem load32_entry_of_agree (h : FrameInv g s) (hf : g.Plain f)
    (hagree : ∀ a, a < f ∨ f + 4096 ≤ a → mem a = s.phys a) {sp : Space} {vp e : Nat}
    (hsp : sp.Has s vp) (he : entry s.phys (sp.dir g) vp = some e) :
    load32 mem e = load32 s.phys e := by
  have hout := h.entry_of_plain hf hsp he
  exact load32_congr fun c hc hc' => hagree c (by omega)

theorem target_of_plain (h : FrameInv g s) (hf : g.Plain f)
    (hagree : ∀ a, a < f ∨ f + 4096 ≤ a → mem a = s.phys a) {sp : Space} {vp : Nat}
    (hsp : sp.Has s vp) : target mem (sp.dir g) vp = target s.phys (sp.dir g) vp := by
  have hvp := has_div_lt hsp
  exact target_congr (h.pde_of_agree hf hagree (space_isDir g sp) (by omega))
    fun e he => h.load32_entry_of_agree hf hagree hsp he

theorem write (h : FrameInv g s) (hf : g.Plain f)
    (hagree : ∀ a, a < f ∨ f + 4096 ≤ a → mem a = s.phys a) : FrameInv g (s.setPhys mem) := by
  have htarget := fun {sp : Space} {vp : Nat} (hsp : sp.Has s vp) =>
    h.target_of_plain hf hagree hsp
  refine h.update g.own mem s.pool h.laidOut h.bit h.pool
    (fun d hd i hi => h.pde_of_agree hf hagree hd hi) (fun _ _ _ ht => ht)
    (fun sp vp f' hsp hf' => h.page sp vp f' hsp (htarget hsp ▸ hf')) (fun f' sp vp hf' => ?_)
    (fun k hk => ?_) (fun t ht => ?_) fun sp vp hsp hne => h.marked sp vp hsp (htarget hsp ▸ hne)
  · obtain ⟨hsp, hold⟩ := h.mapped f' sp vp hf'
    exact ⟨hsp, (htarget hsp).trans hold⟩
  · have hkeep := htarget (Space.has_low s hk)
    exact hkeep
  · have hkeep := htarget (h.process t ht).2.1
    exact hkeep

end Plain

/-! ### Page tables of processes -/

theorem dir_inj (h : FrameInv g s) {t u : Nat} (ht : (s.task t).pgdir ≠ 0)
    (hu : (s.task u).pgdir ≠ 0) (heq : g.dir t = g.dir u) : t = u := by
  have hown := h.own_dir ht
  rw [heq, h.own_dir hu] at hown
  have hpage := (Role.page.inj (Option.some.inj hown)).2
  have hmod := (h.process t ht).1
  have hmod' := (h.process u hu).1
  exact h.pgdirInj t u ht (by omega)

section AddTable

variable {t i q : Nat}

/-- The memory after `page_table_add` has installed and cleared the page table `q`. -/
def withTable (mem : Nat → UInt8) (dir i q : Nat) : Nat → UInt8 :=
  fill (store32 mem (dir + 4 * i) (Mem.pageEntry q)) q 4096 0

theorem pde_withTable (h : FrameInv g s) (hi : i < 1024) (hq : g.own q = some .reserved)
    {d j : Nat} (hd : g.IsDir d) (hj : j < 1024) :
    pde (withTable s.phys (g.dir t) i q) d j =
      if d = g.dir t ∧ j = i then Mem.pageEntry q else pde s.phys d j := by
  have hb := h.own_bounds (f := q) (by rw [hq]; exact Option.some_ne_none _)
  have hmod := (h.dir_bounds hd).1
  have hmod' := (h.dir_bounds (.inr ⟨t, rfl⟩)).1
  have hne : q ≠ d := fun heq => h.not_isDir_of_own hq (fun _ _ => nofun) (heq ▸ hd)
  have hout : pde (withTable s.phys (g.dir t) i q) d j =
      load32 (store32 s.phys (g.dir t + 4 * i) (Mem.pageEntry q)) (d + 4 * j) :=
    load32_congr fun b hb hb' => fill_apply_of_not (by omega)
  rw [hout]
  by_cases heq : d = g.dir t ∧ j = i
  · rw [if_pos heq, heq.1, heq.2, load32_store32_self]
    rw [Mem.pageEntry_eq hb.2.2]
    omega
  · rw [if_neg heq, load32_store32_of_ne (by omega) (by omega) (by omega)]
    rfl

theorem target_withTable (h : FrameInv g s) (ht : (s.task t).pgdir ≠ 0) (hi : i < 768)
    (habsent : ¬ Present (pde s.phys (g.dir t) i)) (hq : g.own q = some .reserved) {sp : Space}
    {vp : Nat} (hsp : sp.Has s vp) :
    target (withTable s.phys (g.dir t) i q) (sp.dir g) vp = target s.phys (sp.dir g) vp := by
  have hb := h.own_bounds (f := q) (by rw [hq]; exact Option.some_ne_none _)
  have hvp := has_div_lt hsp
  have hpde := h.pde_withTable (t := t) (show i < 1024 by omega) hq (space_isDir g sp)
    (show vp / 1024 < 1024 by omega)
  by_cases heq : sp.dir g = g.dir t ∧ vp / 1024 = i
  · rw [if_pos heq] at hpde
    have hold : target s.phys (sp.dir g) vp = none := by
      unfold target entry
      rw [heq.1, heq.2]
      simp only [if_neg habsent]
    rw [hold, target_of_entry (entry_of_present (by rw [hpde]; exact Mem.present_pageEntry hb.2.2)),
      hpde, Mem.frameOf_pageEntry hb.2.2, withTable, load32_fill_zero (by omega)]
    rfl
  · rw [if_neg heq] at hpde
    refine target_congr hpde fun e he => ?_
    obtain ⟨b, hbmod, rfl, hrole⟩ := h.entry_cases hsp he
    have hmod := (h.dir_bounds (.inr ⟨t, rfl⟩)).1
    -- the page table of another page is neither the new one nor the page directory
    have hne : b ≠ q ∧ b ≠ g.dir t := by
      rcases hrole with ⟨rfl, hk⟩ | ⟨u, rfl, hu⟩
      · obtain ⟨hge, hlt⟩ := hsp
        have hdir := (h.process t ht).2.2.1
        unfold kernelTable at hk
        constructor <;> omega
      · refine ⟨?_, ?_⟩
        · rintro rfl
          rw [hq] at hu
          exact nomatch hu
        · rintro rfl
          rw [h.own_dir ht] at hu
          exact nomatch hu
    exact load32_congr fun c hc hc' => by
      rw [withTable, fill_apply_of_not (by omega), store32_apply_of_not (by omega)]

theorem addTable (h : FrameInv g s) (ht : (s.task t).pgdir ≠ 0) (hi : i < 768)
    (habsent : ¬ Present (pde s.phys (g.dir t) i)) (hq : g.own q = some .reserved) :
    FrameInv (g.setOwn q (some (.table t i)))
      (s.setPhys (withTable s.phys (g.dir t) i q)) := by
  have hb := h.own_bounds (f := q) (by rw [hq]; exact Option.some_ne_none _)
  have hpde := fun {d j : Nat} (hd : g.IsDir d) (hj : j < 1024) =>
    h.pde_withTable (t := t) (show i < 1024 by omega) hq hd hj
  have htarget := fun {sp : Space} {vp : Nat} (hsp : sp.Has s vp) =>
    h.target_withTable ht hi habsent hq hsp
  have hown : ∀ {f r}, g.own f = some r → r ≠ .reserved →
      (g.setOwn q (some (.table t i))).own f = some r := by
    intro f r hf hr
    rw [g.own_setOwn_of_ne, hf]
    rintro rfl
    exact hr (Option.some.inj (hf.symm.trans hq))
  have hboot : ∀ {j}, j < 1024 →
      pde (withTable s.phys (g.dir t) i q) bootDir j = pde s.phys bootDir j := by
    intro j hj
    have hdir := (h.process t ht).2.2.1
    exact (hpde (.inl rfl) hj).trans
      (if_neg fun he => by rw [← he.1] at hdir; exact absurd hdir (by decide))
  have hiff : ∀ f, (g.setOwn q (some (.table t i))).own f ≠ none ↔ g.own f ≠ none := by
    intro f
    rw [Frames.own_setOwn]
    split
    · next heq => rw [heq, hq]; simp
    · exact Iff.rfl
  exact {
    debug := h.debug
    laidOut := h.laidOut
    bit := fun pf j hj => (h.bit pf j hj).trans (hiff _).symm
    pool := fun f hf => h.pool f ((hiff f).mp hf)
    cr3 := h.cr3
    thread := h.thread
    process := fun u hu => by
      obtain ⟨hmod, hhas, hge, hdir⟩ := h.process u hu
      have hkeep := htarget hhas
      exact ⟨hmod, hhas, hge, hkeep.trans hdir⟩
    pgdirInj := h.pgdirInj
    selfMap := fun d hd => (hpde hd (by decide)).trans ((if_neg (by omega)).trans (h.selfMap d hd))
    kernelPde := fun d hd j hge hlt =>
      (hpde hd (by omega)).trans ((if_neg (by omega)).trans (h.kernelPde d hd j hge hlt))
    bootFirst := (hboot (by omega)).trans h.bootFirst
    bootRest := fun j hj hj' hp => by
      change Present (pde (withTable s.phys (g.dir t) i q) bootDir j) at hp
      rw [hboot (by omega)] at hp
      exact h.bootRest j hj hj' hp
    table := fun u hu j hj hp => by
      have heq := hpde (d := g.dir u) (j := j) (.inr ⟨u, rfl⟩) (by omega)
      change Present (pde (withTable s.phys (g.dir t) i q) (g.dir u) j) at hp
      show (g.setOwn q (some (.table t i))).own
        (frameOf (pde (withTable s.phys (g.dir t) i q) (g.dir u) j)) = _
      rw [heq] at hp ⊢
      split at hp
      · next hsame =>
        obtain rfl := h.dir_inj hu ht hsame.1
        rw [if_pos hsame, Mem.frameOf_pageEntry hb.2.2, g.own_setOwn_self, hsame.2]
      · next hsame =>
        rw [if_neg hsame]
        exact hown (h.table u hu j hj hp) nofun
    page := fun sp vp f hsp hf =>
      (h.page sp vp f hsp ((htarget hsp).symm.trans hf)).imp_right fun hf => hown hf nofun
    mapped := fun f sp vp hf => by
      rw [Frames.own_setOwn] at hf
      split at hf
      · exact nomatch hf
      · obtain ⟨hsp, hold⟩ := h.mapped f sp vp hf
        exact ⟨hsp, (htarget hsp).trans hold⟩
    low := fun k hk => by
      have hkeep := htarget (Space.has_low s hk)
      exact hkeep.trans (h.low k hk)
    marked := fun sp vp hsp hne => h.marked sp vp hsp fun hnone => hne ((htarget hsp).trans hnone)
    kernelRange := h.kernelRange
    userRange := h.userRange }

end AddTable

/-! ### Ranges, locks and switches -/

theorem setLock (h : FrameInv g s) (pf : PoolFlags) (plock : Lock) :
    FrameInv g (s.setLock pf plock) :=
  ⟨h.debug, h.laidOut, h.bit, h.pool, h.cr3, h.thread, h.process, h.pgdirInj, h.selfMap,
    h.kernelPde, h.bootFirst, h.bootRest, h.table, h.page, h.mapped, h.low, h.marked, h.kernelRange,
    h.userRange⟩

theorem switch (h : FrameInv g s) (t : Nat) :
    FrameInv g { s with cr3 := g.dir t, runningThread := t } :=
  ⟨h.debug, h.laidOut, h.bit, h.pool, rfl, h.thread, h.process, h.pgdirInj, h.selfMap,
    h.kernelPde, h.bootFirst, h.bootRest, h.table, h.page, h.mapped, h.low, h.marked, h.kernelRange,
    h.userRange⟩

end FrameInv

def MemState.space (s : MemState) : PoolFlags → Space
  | .kernel => .kernel
  | .user => .user s.runningThread

def PoolFlags.firstPage : PoolFlags → Nat
  | .kernel => 0xc0100
  | .user => 0x8048

/-- The length of the bitmap of the range of `pf`, in bytes. -/
def PoolFlags.rangeBytes : PoolFlags → Nat
  | .kernel => 480
  | .user => 94199

theorem pgdir_setVaddrBitmap (s : MemState) (pf : PoolFlags) (b : Bitmap) (t : Nat) :
    ((s.setVaddrBitmap pf b).task t).pgdir = (s.task t).pgdir := by
  cases pf with
  | kernel => rfl
  | user =>
    show (Function.update s.task s.runningThread _ t).pgdir = _
    by_cases ht : t = s.runningThread
    · rw [ht, Function.update_self]
    · rw [Function.update_of_ne ht]

theorem has_setVaddrBitmap {s : MemState} {pf : PoolFlags} {b : Bitmap} {sp : Space} {vp : Nat} :
    sp.Has (s.setVaddrBitmap pf b) vp ↔ sp.Has s vp := by
  cases sp with
  | kernel => exact Iff.rfl
  | user t => simp only [Space.Has, pgdir_setVaddrBitmap]

theorem Space.Marked.setVaddrBitmap {s : MemState} {pf : PoolFlags} {b : Bitmap} {sp : Space}
    {vp : Nat} (h : sp.Marked s vp)
    (hb : ∀ k, sp = s.space pf → vp = pf.firstPage + k →
      (s.vaddr pf).vaddrBitmap.bit k = true → b.bit k = true) :
    sp.Marked (s.setVaddrBitmap pf b) vp := by
  cases sp with
  | kernel =>
    intro k hk hvp
    cases pf with
    | kernel => exact hb k rfl hvp (h k hk hvp)
    | user => exact h k hk hvp
  | user t =>
    intro k hk hvp
    cases pf with
    | kernel => exact h k hk hvp
    | user =>
      show (Function.update s.task s.runningThread _ t).userprogVaddr.vaddrBitmap.bit k = true
      by_cases ht : t = s.runningThread
      · subst ht
        rw [Function.update_self]
        exact hb k rfl hvp (h k hk hvp)
      · rw [Function.update_of_ne ht]
        exact h k hk hvp

namespace FrameInv

variable {g : Frames} {s : MemState}

theorem setVaddr (h : FrameInv g s) (pf : PoolFlags) {b : Bitmap}
    (hlen : b.btmpBytesLen = (s.vaddr pf).vaddrBitmap.btmpBytesLen)
    (hb : ∀ k, target s.phys ((s.space pf).dir g) (pf.firstPage + k) ≠ none →
      (s.space pf).Has s (pf.firstPage + k) →
      (s.vaddr pf).vaddrBitmap.bit k = true → b.bit k = true) :
    FrameInv g (s.setVaddrBitmap pf b) := by
  have hpg := fun t => pgdir_setVaddrBitmap s pf b t
  have hphys : (s.setVaddrBitmap pf b).phys = s.phys := by cases pf <;> rfl
  have hpool : (s.setVaddrBitmap pf b).pool = s.pool := by cases pf <;> rfl
  have hcr3 : (s.setVaddrBitmap pf b).cr3 = s.cr3 := by cases pf <;> rfl
  have hrun : (s.setVaddrBitmap pf b).runningThread = s.runningThread := by cases pf <;> rfl
  have hdebug : (s.setVaddrBitmap pf b).ndebug = s.ndebug := by cases pf <;> rfl
  refine ⟨hdebug.trans h.debug, hpool ▸ h.laidOut, hpool ▸ h.bit, h.pool, ?_, fun t ht => ?_,
    fun t ht => ?_, fun t u ht heq => ?_, hphys ▸ h.selfMap, hphys ▸ h.kernelPde,
    hphys ▸ h.bootFirst, hphys ▸ h.bootRest,
    fun t ht => ?_, fun sp vp f hsp hf => ?_, fun f sp vp hf => ?_, hphys ▸ h.low,
    fun sp vp hsp hne => ?_, ?_, fun t ht => ?_⟩
  · rw [hcr3, hrun]
    exact h.cr3
  · exact h.thread t (hpg t ▸ ht)
  · rw [hpg] at ht
    rw [hpg, hphys]
    exact h.process t ht
  · rw [hpg] at ht
    rw [hpg, hpg] at heq
    exact h.pgdirInj t u ht heq
  · rw [hpg] at ht
    rw [hphys]
    exact h.table t ht
  · rw [hphys] at hf
    exact h.page sp vp f (has_setVaddrBitmap.mp hsp) hf
  · rw [has_setVaddrBitmap, hphys]
    exact h.mapped f sp vp hf
  · rw [hphys] at hne
    have hsp' := has_setVaddrBitmap.mp hsp
    refine (h.marked sp vp hsp' hne).setVaddrBitmap fun k hspace hvp hbit => ?_
    rw [hspace, hvp] at hne hsp'
    exact hb k hne hsp' hbit
  · cases pf with
    | kernel => exact ⟨h.kernelRange.1, hlen.trans h.kernelRange.2⟩
    | user => exact h.kernelRange
  · rw [hpg] at ht
    have hrange := h.userRange t ht
    cases pf with
    | kernel => exact hrange
    | user =>
      show (Function.update s.task s.runningThread _ t).userprogVaddr.vaddrStart = _ ∧
        (Function.update s.task s.runningThread _ t).userprogVaddr.vaddrBitmap.btmpBytesLen = _
      by_cases hcur : t = s.runningThread
      · subst hcur
        rw [Function.update_self]
        exact ⟨hrange.1, hlen.trans hrange.2⟩
      · rw [Function.update_of_ne hcur]
        exact hrange

end FrameInv

end OriginOS
