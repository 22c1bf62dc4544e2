import OriginOS.Kernel.FrameInvariant

/-! What the page operations of `kernel/memory.c` do to memory, the pools and the ranges. -/

namespace OriginOS

open Lib

/-! ### `page_table_add` -/

namespace Mem

variable {s : MemState} {v : Nat}

theorem loadPde_ok (hself : SelfMapped s.phys s.cr3) (hv : v < 2 ^ 32) :
    loadWord (pdePtr v) s = .ok (pde s.phys s.cr3 (v / 4096 / 1024), s) :=
  loadWord_ok (walk_pdePtr hself hv)

theorem pageTableAdd_ok (hself : SelfMapped s.phys s.cr3) (hv : v < 2 ^ 32) {e : Nat}
    (he : entry s.phys s.cr3 (v / 4096) = some e) (hnot : ¬ Present (load32 s.phys e)) (p : Nat) :
    pageTableAdd v p s = .ok ((), s.setPhys (store32 s.phys e (pageEntry p))) := by
  have hpde := loadPde_ok hself hv
  have hpte := walk_ptePtr hself hv he
  have hzero := and_one_eq_zero.mpr hnot
  unfold pageTableAdd
  rw [bind_of_ok hpde, if_pos (and_one_ne_zero.mpr (entry_eq_some.mp he).1),
    bind_of_ok (loadWord_ok hpte), bind_of_ok (assert_ok _ (decide_eq_true hzero)),
    bind_of_ok (loadWord_ok hpte), if_pos hzero]
  exact storeWord_ok hpte _

theorem pageTableAdd_mapped (hself : SelfMapped s.phys s.cr3) (hdebug : s.ndebug = false)
    (hv : v < 2 ^ 32) {f : Nat} (hf : target s.phys s.cr3 (v / 4096) = some f) (p : Nat) :
    pageTableAdd v p s = .error (.panic
      ⟨"./kernel/memory.c", 104, "page_table_add", "!(*pte & 0x00000001)"⟩) := by
  obtain ⟨e, he, hp, -⟩ := target_eq_some.mp hf
  have hpde := loadPde_ok hself hv
  have hpte := walk_ptePtr hself hv he
  unfold pageTableAdd
  rw [bind_of_ok hpde, if_pos (and_one_ne_zero.mpr (entry_eq_some.mp he).1),
    bind_of_ok (loadWord_ok hpte)]
  rw [decide_eq_false (and_one_ne_zero.mpr hp), bind_apply, assert, read_bind, hdebug]
  rfl

theorem pageTableAdd_noFrame (hself : SelfMapped s.phys s.cr3) (hv : v < 2 ^ 32)
    (habsent : ¬ Present (pde s.phys s.cr3 (v / 4096 / 1024))) {e : Stop}
    (hq : palloc .kernel s = .error e) (p : Nat) : pageTableAdd v p s = .error e := by
  unfold pageTableAdd
  rw [bind_of_ok (loadPde_ok hself hv), if_neg fun hand => habsent (and_one_ne_zero.mp hand),
    bind_apply, hq]
  rfl

theorem pageTableAdd_newTable (hself : SelfMapped s.phys s.cr3) (hv : v < 0xffc00000)
    (hcr3 : s.cr3 % 4096 = 0)
    (habsent : ¬ Present (pde s.phys s.cr3 (v / 4096 / 1024))) {pool : PoolFlags → Pool} {q : Nat}
    (hq : palloc .kernel s = .ok (q, s.setPool pool)) (hmod : q % 4096 = 0) (hlt : q < 2 ^ 32)
    (hne : q ≠ s.cr3) (p : Nat) :
    pageTableAdd v p s = .ok ((), (s.setPool pool).setPhys
      (store32 (FrameInv.withTable s.phys s.cr3 (v / 4096 / 1024) q) (q + 4 * (v / 4096 % 1024))
        (pageEntry p))) := by
  have hlt32 : v < 2 ^ 32 := by omega
  have hi : v / 4096 / 1024 < 1023 := by omega
  have hentry : pageEntry q < 2 ^ 32 := by
    rw [pageEntry_eq hmod]
    omega
  have hpde := loadPde_ok hself hlt32
  -- the directory while the new page table is cleared
  have hdir : ∀ mem : Nat → UInt8, (∀ a, a < q ∨ q + 4096 ≤ a →
      mem a = store32 s.phys (s.cr3 + 4 * (v / 4096 / 1024)) (pageEntry q) a) →
      SelfMapped mem s.cr3 ∧ pde mem s.cr3 (v / 4096 / 1024) = pageEntry q := by
    intro mem hmem
    have hload : ∀ j < 1024, pde mem s.cr3 j =
        load32 (store32 s.phys (s.cr3 + 4 * (v / 4096 / 1024)) (pageEntry q)) (s.cr3 + 4 * j) :=
      fun j hj => load32_congr fun b hb hb' => hmem b (by omega)
    have hlast : pde mem s.cr3 1023 = pde s.phys s.cr3 1023 :=
      (hload 1023 (by decide)).trans (load32_store32_of_disjoint (by omega))
    refine ⟨⟨?_, ?_⟩, (hload _ (by omega)).trans (load32_store32_self hentry)⟩
    · rw [hlast]
      exact hself.present
    · rw [hlast]
      exact hself.frame
  have hpage : ptePtr v &&& 0xfffff000 = 0xffc00000 + 4096 * (v / 4096 / 1024) := by
    rw [ptePtr_eq hlt32, and_page_mask (by omega)]
    omega
  have hwalk : ∀ k < 4096, ∀ mem : Nat → UInt8, (∀ a, a < q ∨ q + 4096 ≤ a →
      mem a = store32 s.phys (s.cr3 + 4 * (v / 4096 / 1024)) (pageEntry q) a) →
      walk mem s.cr3 (0xffc00000 + 4096 * (v / 4096 / 1024) + k) = some (q + k) := by
    intro k hk mem hmem
    obtain ⟨hmap, heq⟩ := hdir mem hmem
    have hw := hmap.walk_table (i := v / 4096 / 1024) (by omega)
      (by rw [heq]; exact present_pageEntry hmod) hk
    rwa [heq, frameOf_pageEntry hmod] at hw
  have hset : memset (ptePtr v &&& 0xfffff000) 0 pgSize
      ((s.setPool pool).setPhys (store32 s.phys (s.cr3 + 4 * (v / 4096 / 1024)) (pageEntry q))) =
      .ok ((), (s.setPool pool).setPhys (FrameInv.withTable s.phys s.cr3 (v / 4096 / 1024) q)) := by
    rw [memset, hpage, bind_of_ok (assert_ok _ (by simp)), show pgSize = 4096 from rfl]
    have hloop := memsetLoop_ok (s := (s.setPool pool).setPhys
      (store32 s.phys (s.cr3 + 4 * (v / 4096 / 1024)) (pageEntry q))) 0 hwalk
    exact hloop
  have hpte : walk (FrameInv.withTable s.phys s.cr3 (v / 4096 / 1024) q) s.cr3 (ptePtr v) =
      some (q + 4 * (v / 4096 % 1024)) := by
    rw [ptePtr_eq hlt32]
    exact hwalk _ (by omega) _ fun a ha => fill_apply_of_not ha
  have hzero : load32 (FrameInv.withTable s.phys s.cr3 (v / 4096 / 1024) q)
      (q + 4 * (v / 4096 % 1024)) = 0 := load32_fill_zero (by omega)
  have hstore : storeWord (pdePtr v) (pageEntry q) (s.setPool pool) = .ok ((),
      (s.setPool pool).setPhys (store32 s.phys (s.cr3 + 4 * (v / 4096 / 1024)) (pageEntry q))) :=
    storeWord_ok (s := s.setPool pool) (walk_pdePtr hself hlt32) _
  have hload : loadWord (ptePtr v)
      ((s.setPool pool).setPhys (FrameInv.withTable s.phys s.cr3 (v / 4096 / 1024) q)) =
      .ok (0, (s.setPool pool).setPhys (FrameInv.withTable s.phys s.cr3 (v / 4096 / 1024) q)) := by
    rw [← hzero]
    exact loadWord_ok hpte
  unfold pageTableAdd
  rw [bind_of_ok hpde, if_neg (fun hand => habsent (and_one_ne_zero.mp hand)), bind_of_ok hq,
    bind_of_ok hstore, bind_of_ok hset, bind_of_ok hload, bind_of_ok (assert_ok _ (by decide))]
  rw [storeWord_ok (s := (s.setPool pool).setPhys
    (FrameInv.withTable s.phys s.cr3 (v / 4096 / 1024) q)) hpte, MemState.setPhys_setPhys]
  rfl

end Mem

/-! ### Frames for pages and page tables -/

/-- Panics that page operations may end in: those of no function of the heap. -/
def Tolerates (E : Stop → Prop) : Prop :=
  ∀ p : Panic, p.func ≠ "sys_malloc" ∧ p.func ≠ "sys_free" → E (.panic p)

/-- The bitmaps of the pools agree behind the bits of the frames. -/
structure PoolsAgree (pool pool' : PoolFlags → Pool) : Prop where
  addr : ∀ pf, (pool' pf).poolBitmap.addr = (pool pf).poolBitmap.addr
  bit : ∀ pf j, 3840 ≤ j → (pool' pf).poolBitmap.bit j = (pool pf).poolBitmap.bit j

namespace PoolsAgree

variable {pool pool' pool'' : PoolFlags → Pool}

theorem refl (pool : PoolFlags → Pool) : PoolsAgree pool pool := ⟨fun _ => rfl, fun _ _ _ => rfl⟩

theorem trans (h : PoolsAgree pool pool') (h' : PoolsAgree pool' pool'') :
    PoolsAgree pool pool'' :=
  ⟨fun pf => (h'.addr pf).trans (h.addr pf), fun pf j hj => (h'.bit pf j hj).trans (h.bit pf j hj)⟩

theorem put (h : PoolsAgree pool pool') (pf : PoolFlags) {i : Nat} (hi : i < 3840) (value : Bool) :
    PoolsAgree pool (Function.update pool' pf ((pool' pf).put i value)) := by
  refine ⟨fun pf' => ?_, fun pf' j hj => ?_⟩
  · rw [← h.addr]
    by_cases heq : pf' = pf
    · rw [heq, Function.update_self]
      rfl
    · rw [Function.update_of_ne heq]
  · rw [Pool.bit_update, if_neg (by omega)]
    exact h.bit pf' j hj

end PoolsAgree

def Space.Current (s : MemState) : Space → Prop
  | .kernel => True
  | .user t => t = s.runningThread

namespace FrameInv

variable {g : Frames} {s : MemState} {sp : Space} {vp : Nat}

theorem entry_current (h : FrameInv g s) (hsp : sp.Has s vp) (hcur : sp.Current s) :
    entry s.phys s.cr3 vp = entry s.phys (sp.dir g) vp := by
  cases sp with
  | kernel =>
    rw [h.entry_kernel h.cr3_isDir hsp, Space.dir, h.entry_kernel (.inl rfl) hsp]
  | user t =>
    rw [h.cr3, ← show t = s.runningThread from hcur]
    rfl

theorem target_current (h : FrameInv g s) (hsp : sp.Has s vp) (hcur : sp.Current s) :
    target s.phys s.cr3 vp = target s.phys (sp.dir g) vp := by
  unfold target
  rw [h.entry_current hsp hcur]

theorem ensures_palloc (h : FrameInv g s) {E : Stop → Prop} (hE : Tolerates E) (pf : PoolFlags) :
    Ensures (Mem.palloc pf) E (fun a t => ∃ i < 3840, a = frameAddr pf i ∧
      (s.pool pf).poolBitmap.bit i = false ∧
      t = s.setPool (Function.update s.pool pf ((s.pool pf).put i true))) s := by
  unfold Mem.palloc
  refine Mem.ensures_read_bind ?_
  rw [h.debug]
  refine ensures_bind (Mem.ensures_ofPanic (fun r hr => ?_) fun p hp => ?_)
  · obtain ⟨a, p⟩ := r
    obtain ⟨i, hi, hbit, rfl, rfl⟩ := palloc_ok hr
    rw [h.laidOut.frames] at hi
    rw [h.laidOut.frame]
    exact ⟨i, hi, rfl, hbit, rfl⟩
  · have hfunc := palloc_error hp
    exact hE p (by rw [hfunc]; decide)

end FrameInv

theorem Mem.palloc_first {s : MemState} (h : PoolsLaidOut s.pool) {pf : PoolFlags} {k : Nat}
    (hk : k < 3840) (hset : ∀ j < k, (s.pool pf).poolBitmap.bit j = true)
    (hclear : (s.pool pf).poolBitmap.bit k = false) :
    Mem.palloc pf s = .ok (frameAddr pf k,
      s.setPool (Function.update s.pool pf ((s.pool pf).put k true))) := by
  rw [Mem.palloc, Mem.read_bind, OriginOS.palloc_first _ (by rw [h.frames]; exact hk) hset
    hclear, bind_of_ok Mem.ofPanic_ok, h.frame]
  rfl

/-! ### New pages -/

/-- The frame `p` is reserved for a page of `sp`, and a page table for it may have been made. -/
structure Prepared (p : Nat) (sp : Space) (g g' : Frames) (s s' : MemState) : Prop where
  inv : FrameInv g' s'
  dir : g'.dir = g.dir
  state : ∃ pool mem, s' = (s.setPool pool).setPhys mem
  pools : PoolsAgree s.pool s'.pool
  unused : g.own p = none
  reserved : g'.own p = some .reserved
  own : ∀ f r, g.own f = some r → g'.own f = some r
  fresh : ∀ f r, g'.own f = some r → g.own f = none →
    f = p ∨ (sp ≠ .kernel ∧ ∃ t i, r = .table t i)
  keeps : ∀ (sp' : Space) vp', sp'.Has s vp' →
    target s'.phys (sp'.dir g) vp' = target s.phys (sp'.dir g) vp'
  bytes : ∀ f, g.own f ≠ none ∨ f < 0x100000 → g.Plain f → ∀ a, f ≤ a → a < f + 4096 →
    s'.phys a = s.phys a

/-- The pages `vp` to `vp + n - 1` of `sp` have got frames of the pool `pf`, and nothing that was in
use has changed. -/
structure Grew (pf : PoolFlags) (sp : Space) (vp n : Nat) (g g' : Frames) (s s' : MemState) :
    Prop where
  inv : FrameInv g' s'
  dir : g'.dir = g.dir
  state : ∃ pool mem, s' = (s.setPool pool).setPhys mem
  pools : PoolsAgree s.pool s'.pool
  own : ∀ f r, g.own f = some r → g'.own f = some r
  fresh : ∀ f r, g'.own f = some r → g.own f = none →
    (∃ k < n, r = .page sp (vp + k)) ∨ (sp ≠ .kernel ∧ ∃ t i, r = .table t i)
  keeps : ∀ (sp' : Space) vp', sp'.Has s vp' → ¬ (sp' = sp ∧ vp ≤ vp' ∧ vp' < vp + n) →
    target s'.phys (sp'.dir g) vp' = target s.phys (sp'.dir g) vp'
  was : ∀ k < n, target s.phys (sp.dir g) (vp + k) = none
  mapped : ∀ k < n, ∃ i < 3840, target s'.phys (sp.dir g) (vp + k) = some (frameAddr pf i) ∧
    g.own (frameAddr pf i) = none
  bytes : ∀ f, g.own f ≠ none ∨ f < 0x100000 → g.Plain f → ∀ a, f ≤ a → a < f + 4096 →
    s'.phys a = s.phys a

theorem Space.dir_congr {g g' : Frames} (h : g'.dir = g.dir) (sp : Space) :
    sp.dir g' = sp.dir g := by
  cases sp with
  | kernel => rfl
  | user t => exact congrFun h t

theorem Frames.Plain.of_own {g g' : Frames} {f : Nat} (h : g.Plain f) (hdir : g'.dir = g.dir)
    (hown : ∀ t i, g'.own f ≠ some (.table t i)) : g'.Plain f := by
  refine ⟨h.aligned, ?_, hown, h.notBoot⟩
  unfold Frames.IsDir
  rw [hdir]
  exact h.notDir

namespace Prepared

variable {g g' : Frames} {s s' : MemState} {p j : Nat} {sp : Space} {pf : PoolFlags}

theorem of_palloc (h : FrameInv g s) {i : Nat} (hi : i < 3840)
    (hbit : (s.pool pf).poolBitmap.bit i = false) (sp : Space) :
    Prepared (frameAddr pf i) sp g (g.setOwn (frameAddr pf i) (some .reserved)) s
      (s.setPool (Function.update s.pool pf ((s.pool pf).put i true))) := by
  obtain ⟨hnone, hinv⟩ := h.palloc hi hbit
  refine ⟨hinv, rfl, ⟨Function.update s.pool pf ((s.pool pf).put i true), s.phys, rfl⟩,
    (PoolsAgree.refl _).put pf hi true, hnone,
    g.own_setOwn_self .., fun f r hf => ?_, fun f r hf hold => ?_, fun _ _ _ => rfl,
    fun _ _ _ _ _ _ => rfl⟩
  · rw [g.own_setOwn_of_ne, hf]
    rintro rfl
    rw [hnone] at hf
    exact nomatch hf
  · by_contra hne
    rw [g.own_setOwn_of_ne (fun heq => hne (.inl heq)), hold] at hf
    exact nomatch hf

theorem has (h : Prepared p sp g g' s s') {sp' : Space} {vp : Nat} (hsp : sp'.Has s vp) :
    sp'.Has s' vp := by
  obtain ⟨pool, mem, rfl⟩ := h.state
  exact hsp

theorem marked (h : Prepared p sp g g' s s') {sp' : Space} {vp : Nat} (hsp : sp'.Marked s vp) :
    sp'.Marked s' vp := by
  obtain ⟨pool, mem, rfl⟩ := h.state
  exact hsp

theorem plain (h : Prepared p sp g g' s s') {f : Nat} (hused : g.own f ≠ none ∨ f < 0x100000)
    (hf : g.Plain f) : g'.Plain f := by
  refine hf.of_own h.dir fun t i ht => ?_
  rcases hused with hused | hlow
  · obtain ⟨r, hr⟩ := Option.ne_none_iff_exists'.mp hused
    rw [h.own f r hr, ← hr] at ht
    exact hf.notTable t i ht
  · have hb := h.inv.own_bounds (f := f) (by rw [ht]; exact Option.some_ne_none _)
    omega

theorem addTable (h : Prepared p sp g g' s s') {t i : Nat} (hsp : sp ≠ .kernel)
    (ht : (s'.task t).pgdir ≠ 0) (hi : i < 768) (habsent : ¬ Present (pde s'.phys (g'.dir t) i))
    (hj : j < 3840) (hbit : (s'.pool .kernel).poolBitmap.bit j = false) :
    Prepared p sp g ((g'.setOwn (frameAddr .kernel j) (some .reserved)).setOwn
        (frameAddr .kernel j) (some (.table t i))) s
      ((s'.setPool (Function.update s'.pool .kernel ((s'.pool .kernel).put j true))).setPhys
        (FrameInv.withTable s'.phys (g'.dir t) i (frameAddr .kernel j))) := by
  obtain ⟨hnone, hinv⟩ := h.inv.palloc hj hbit
  have hres := g'.own_setOwn_self (frameAddr .kernel j) (some .reserved)
  generalize hq : frameAddr .kernel j = q at hnone hinv hres ⊢
  have hne : ∀ {f r}, g'.own f = some r → f ≠ q := by
    rintro f r hf rfl
    rw [hnone] at hf
    exact nomatch hf
  have hkeep : ∀ {f r}, g'.own f = some r →
      ((g'.setOwn q (some .reserved)).setOwn q (some (.table t i))).own f = some r := by
    intro f r hf
    rw [Frames.own_setOwn_of_ne _ (hne hf), Frames.own_setOwn_of_ne _ (hne hf), hf]
  refine ⟨hinv.addTable ht hi habsent hres, h.dir, ?_, h.pools.put .kernel hj true, h.unused,
    hkeep h.reserved, fun f r hf => hkeep (h.own f r hf), fun f r hf hold => ?_,
    fun sp' vp' hsp' => ?_, fun f hused hf a ha ha' => ?_⟩
  · obtain ⟨pool, mem, hstate⟩ := h.state
    exact ⟨_, _, by rw [hstate]; rfl⟩
  · by_cases heq : f = q
    · rw [heq, Frames.own_setOwn_self] at hf
      exact .inr ⟨hsp, t, i, (Option.some.inj hf).symm⟩
    · rw [Frames.own_setOwn_of_ne _ heq, Frames.own_setOwn_of_ne _ heq] at hf
      exact h.fresh f r hf hold
  · have hnew := hinv.target_withTable ht hi habsent hres (show sp'.Has _ vp' from h.has hsp')
    rw [Space.dir_congr (show (g'.setOwn q _).dir = g.dir from h.dir)] at hnew
    exact hnew.trans (h.keeps sp' vp' hsp')
  · have hplain := h.plain hused hf
    have hfq : f ≠ q := by
      rcases hused with hused | hlow
      · obtain ⟨r, hr⟩ := Option.ne_none_iff_exists'.mp hused
        exact hne (h.own f r hr)
      · have hb := hinv.own_bounds (f := q) (by rw [hres]; exact Option.some_ne_none _)
        omega
    have hb := hinv.own_bounds (f := q) (by rw [hres]; exact Option.some_ne_none _)
    have hdir : f ≠ g'.dir t := fun heq => hplain.notDir (.inr ⟨t, heq.symm⟩)
    have hmod := (h.inv.dir_bounds (.inr ⟨t, rfl⟩)).1
    have haligned := hf.aligned
    rw [← h.bytes f hused hf a ha ha']
    show FrameInv.withTable s'.phys (g'.dir t) i q a = s'.phys a
    rw [FrameInv.withTable, fill_apply_of_not (by omega), store32_apply_of_not (by omega)]

theorem map (h : Prepared (frameAddr pf j) sp g g' s s') (hj : j < 3840) {vp e : Nat}
    (hsp : sp.Has s vp) (he : entry s'.phys (sp.dir g') vp = some e)
    (hnot : target s'.phys (sp.dir g') vp = none) (hmarked : sp.Marked s vp) :
    Grew pf sp vp 1 g (g'.setOwn (frameAddr pf j) (some (.page sp vp))) s
      (s'.setPhys (store32 s'.phys e (Mem.pageEntry (frameAddr pf j)))) := by
  have hsp' := h.has hsp
  obtain ⟨hinv, hself⟩ := h.inv.map hsp' he hnot h.reserved (h.marked hmarked)
  have hdir := fun sp' : Space => sp'.dir_congr h.dir
  refine ⟨hinv, h.dir, ?_, h.pools, fun f r hf => ?_, fun f r hf hold => ?_,
    fun sp' vp' hsp'' hne => ?_, fun k hk => ?_, fun k hk => ?_, fun f hused hf a ha ha' => ?_⟩
  · obtain ⟨pool, mem, hstate⟩ := h.state
    exact ⟨pool, _, by rw [hstate]; rfl⟩
  · rw [Frames.own_setOwn_of_ne, h.own f r hf]
    rintro rfl
    rw [h.unused] at hf
    exact nomatch hf
  · by_cases heq : f = frameAddr pf j
    · rw [heq, Frames.own_setOwn_self] at hf
      exact .inl ⟨0, Nat.one_pos, (Option.some.inj hf).symm⟩
    · rw [Frames.own_setOwn_of_ne _ heq] at hf
      exact .inr ((h.fresh f r hf hold).resolve_left heq)
  · have hkeep := h.inv.target_store_of_ne hsp' he (Mem.pageEntry (frameAddr pf j)) (h.has hsp'')
      (fun heq => hne ⟨heq.1, by omega, by omega⟩)
    rw [hdir] at hkeep
    exact hkeep.trans (h.keeps sp' vp' hsp'')
  · obtain rfl : k = 0 := by omega
    rw [Nat.add_zero, ← h.keeps sp vp hsp, ← hdir]
    exact hnot
  · obtain rfl : k = 0 := by omega
    refine ⟨j, hj, ?_, h.unused⟩
    rw [hdir] at hself
    exact hself
  · have hout := h.inv.entry_of_plain (h.plain hused hf) hsp' he
    exact (store32_apply_of_not (by omega)).trans (h.bytes f hused hf a ha ha')

end Prepared

namespace Grew

variable {g g' g'' : Frames} {s s' s'' : MemState} {sp : Space} {pf : PoolFlags} {vp n m : Nat}

theorem refl (h : FrameInv g s) (pf : PoolFlags) (sp : Space) (vp : Nat) :
    Grew pf sp vp 0 g g s s := by
  refine ⟨h, rfl, ⟨s.pool, s.phys, rfl⟩, .refl _, fun _ _ hf => hf, fun f r hf hold => ?_,
    fun _ _ _ _ => rfl, fun k hk => absurd hk (Nat.not_lt_zero k),
    fun k hk => absurd hk (Nat.not_lt_zero k), fun _ _ _ _ _ _ => rfl⟩
  rw [hold] at hf
  exact nomatch hf

theorem has (h : Grew pf sp vp n g g' s s') {sp' : Space} {vp' : Nat} :
    sp'.Has s' vp' ↔ sp'.Has s vp' := by
  obtain ⟨pool, mem, rfl⟩ := h.state
  exact Iff.rfl

theorem marked (h : Grew pf sp vp n g g' s s') {sp' : Space} {vp' : Nat} :
    sp'.Marked s' vp' ↔ sp'.Marked s vp' := by
  obtain ⟨pool, mem, rfl⟩ := h.state
  exact Iff.rfl

theorem current (h : Grew pf sp vp n g g' s s') {sp' : Space} :
    sp'.Current s' ↔ sp'.Current s := by
  obtain ⟨pool, mem, rfl⟩ := h.state
  exact Iff.rfl

theorem own_ne_none (h : Grew pf sp vp n g g' s s') {f : Nat} (hf : g.own f ≠ none) :
    g'.own f ≠ none := by
  obtain ⟨r, hr⟩ := Option.ne_none_iff_exists'.mp hf
  rw [h.own f r hr]
  exact Option.some_ne_none r

theorem plain (h : Grew pf sp vp n g g' s s') {f : Nat} (hused : g.own f ≠ none ∨ f < 0x100000)
    (hf : g.Plain f) : g'.Plain f := by
  refine hf.of_own h.dir fun t i ht => ?_
  rcases hused with hused | hlow
  · obtain ⟨r, hr⟩ := Option.ne_none_iff_exists'.mp hused
    rw [h.own f r hr, ← hr] at ht
    exact hf.notTable t i ht
  · have hb := h.inv.own_bounds (f := f) (by rw [ht]; exact Option.some_ne_none _)
    omega

theorem trans (h : Grew pf sp vp n g g' s s') (h' : Grew pf sp (vp + n) m g' g'' s' s'')
    (hsp : ∀ k < n + m, sp.Has s (vp + k)) :
    Grew pf sp vp (n + m) g g'' s s'' := by
  have hdir := fun sp' : Space => sp'.dir_congr h.dir
  refine ⟨h'.inv, h'.dir.trans h.dir, ?_, h.pools.trans h'.pools,
    fun f r hf => h'.own f r (h.own f r hf), fun f r hf hold => ?_, fun sp' vp' hsp' hne => ?_,
    fun k hk => ?_, fun k hk => ?_, fun f hused hf a ha ha' => ?_⟩
  · obtain ⟨pool, mem, hstate⟩ := h.state
    obtain ⟨pool', mem', hstate'⟩ := h'.state
    exact ⟨pool', mem', by rw [hstate', hstate]; rfl⟩
  · cases hmid : g'.own f with
    | none =>
      refine (h'.fresh f r hf hmid).imp_left ?_
      rintro ⟨k, hk, rfl⟩
      exact ⟨n + k, by omega, by rw [Nat.add_assoc]⟩
    | some r' =>
      have hr : r' = r := Option.some.inj ((h'.own f r' hmid).symm.trans hf)
      refine (h.fresh f r (hr ▸ hmid) hold).imp_left ?_
      rintro ⟨k, hk, rfl⟩
      exact ⟨k, by omega, rfl⟩
  · have hsecond := h'.keeps sp' vp' (h.has.mpr hsp') (fun heq => hne ⟨heq.1, by omega, by omega⟩)
    rw [hdir] at hsecond
    exact hsecond.trans (h.keeps sp' vp' hsp' (fun heq => hne ⟨heq.1, by omega, by omega⟩))
  · by_cases hlt : k < n
    · exact h.was k hlt
    · have hnone := h'.was (k - n) (by omega)
      rw [hdir, show vp + n + (k - n) = vp + k by omega] at hnone
      rw [← h.keeps sp (vp + k) (hsp k hk) (by omega)]
      exact hnone
  · by_cases hlt : k < n
    · obtain ⟨i, hi, htarget, hown⟩ := h.mapped k hlt
      refine ⟨i, hi, ?_, hown⟩
      have hkeep := h'.keeps sp (vp + k) (h.has.mpr (hsp k hk)) (by omega)
      rw [hdir] at hkeep
      rw [hkeep, htarget]
    · obtain ⟨i, hi, htarget, hown⟩ := h'.mapped (k - n) (by omega)
      rw [hdir, show vp + n + (k - n) = vp + k by omega] at htarget
      refine ⟨i, hi, htarget, ?_⟩
      by_contra hne
      exact h.own_ne_none hne hown
  · rw [h'.bytes f (hused.imp_left h.own_ne_none) (h.plain hused hf) a ha ha',
      h.bytes f hused hf a ha ha']

end Grew

/-! ### `malloc_page` -/

theorem Prepared.current {g g' : Frames} {s s' : MemState} {p : Nat} {sp : Space}
    (h : Prepared p sp g g' s s') {sp' : Space} (hcur : sp'.Current s) : sp'.Current s' := by
  obtain ⟨pool, mem, rfl⟩ := h.state
  exact hcur

section Malloc

variable {g g' : Frames} {s s' : MemState} {sp : Space} {pf : PoolFlags} {vp : Nat}
  {E : Stop → Prop}

theorem Prepared.map_newTable {t j i : Nat} (h : Prepared (frameAddr pf j) (.user t) g g' s s')
    (hj : j < 3840) (hsp : (Space.user t).Has s vp) (hmarked : (Space.user t).Marked s vp)
    (habsent : ¬ Present (pde s'.phys (g'.dir t) (vp / 1024))) (hi : i < 3840)
    (hbit : (s'.pool .kernel).poolBitmap.bit i = false) :
    ∃ g'', Grew pf (.user t) vp 1 g g'' s
      ((s'.setPool (Function.update s'.pool .kernel ((s'.pool .kernel).put i true))).setPhys
        (store32 (FrameInv.withTable s'.phys (g'.dir t) (vp / 1024) (frameAddr .kernel i))
          (frameAddr .kernel i + 4 * (vp % 1024)) (Mem.pageEntry (frameAddr pf j)))) := by
  have hsp' := h.has hsp
  have hvp : vp / 1024 < 768 := by have := hsp.2; omega
  obtain ⟨-, hinv⟩ := h.inv.palloc hi hbit
  have hres := g'.own_setOwn_self (frameAddr .kernel i) (some .reserved)
  have hmod := (hinv.own_bounds (by rw [hres]; exact Option.some_ne_none _)).2.2
  have hpde : pde (FrameInv.withTable s'.phys (g'.dir t) (vp / 1024) (frameAddr .kernel i))
      (g'.dir t) (vp / 1024) = Mem.pageEntry (frameAddr .kernel i) :=
    (hinv.pde_withTable (by omega) hres (.inr ⟨t, rfl⟩) (by omega)).trans (if_pos ⟨rfl, rfl⟩)
  have hkeep := hinv.target_withTable hsp'.1 hvp habsent hres
    (show (Space.user t).Has _ vp from hsp')
  have hnew := h.addTable Space.noConfusion hsp'.1 hvp habsent hi hbit
  refine ⟨_, hnew.map (e := frameAddr .kernel i + 4 * (vp % 1024)) hj hsp ?_ ?_ hmarked⟩
  · refine entry_eq_some.mpr ⟨?_, ?_⟩
    · show Present (pde (FrameInv.withTable s'.phys (g'.dir t) _ _) (g'.dir t) _)
      rw [hpde]
      exact Mem.present_pageEntry hmod
    · show _ = frameOf (pde (FrameInv.withTable s'.phys (g'.dir t) _ _) (g'.dir t) _) + _
      rw [hpde, Mem.frameOf_pageEntry hmod]
  · refine hkeep.trans ?_
    show target s'.phys (g'.dir t) vp = none
    unfold target entry
    simp only [if_neg habsent]

theorem Prepared.ensures_pageTableAdd {j v : Nat}
    (h : Prepared (frameAddr pf j) sp g g' s s') (hE : Tolerates E) (hj : j < 3840)
    (hsp : sp.Has s vp) (hcur : sp.Current s) (hmarked : sp.Marked s vp) (hv : v / 4096 = vp) :
    Ensures (Mem.pageTableAdd v (frameAddr pf j)) E
      (fun _ t => ∃ g'', Grew pf sp vp 1 g g'' s t) s' := by
  subst hv
  have hsp' := h.has hsp
  have hlt := FrameInv.has_div_lt hsp
  have hself := h.inv.selfMapped h.inv.cr3_isDir
  have hentry := h.inv.entry_current hsp' (h.current hcur)
  cases he : entry s'.phys (sp.dir g') (v / 4096) with
  | some e =>
    rw [he] at hentry
    by_cases hp : Present (load32 s'.phys e)
    · refine ensures_of_error (Mem.pageTableAdd_mapped hself h.inv.debug (by omega)
        (target_eq_some.mpr ⟨e, hentry, hp, rfl⟩) _) (hE _ (by decide))
    · have hnone : target s'.phys (sp.dir g') (v / 4096) = none := by
        rw [target_of_entry he, if_neg hp]
      exact ensures_of_ok (Mem.pageTableAdd_ok hself (by omega) hentry hp _)
        ⟨_, h.map hj hsp he hnone hmarked⟩
  | none =>
    -- only the user's half can lack a page table
    cases sp with
    | kernel => rw [Space.dir, h.inv.entry_kernel (.inl rfl) hsp'] at he; cases he
    | user t =>
      have hdir : s'.cr3 = g'.dir t := by
        rw [h.inv.cr3, show t = s'.runningThread from h.current hcur]
      have habsent : ¬ Present (pde s'.phys s'.cr3 (v / 4096 / 1024)) := by
        intro hp
        rw [hdir] at hp
        rw [Space.dir, entry_of_present hp] at he
        cases he
      have hpalloc := h.inv.ensures_palloc hE .kernel
      cases hq : Mem.palloc .kernel s' with
      | error e =>
        exact ensures_of_error (Mem.pageTableAdd_noFrame hself (by omega) habsent hq _)
          (hpalloc.error hq)
      | ok r =>
        obtain ⟨q, u⟩ := r
        obtain ⟨i, hi, rfl, hbit, rfl⟩ := hpalloc.ok hq
        obtain ⟨hnone, hinv⟩ := h.inv.palloc hi hbit
        have hres := g'.own_setOwn_self (frameAddr .kernel i) (some .reserved)
        have hb := hinv.own_bounds (by rw [hres]; exact Option.some_ne_none _)
        have hne : frameAddr .kernel i ≠ s'.cr3 := fun heq =>
          hinv.not_isDir_of_own hres (by rintro _ _ ⟨⟩) (heq ▸ h.inv.cr3_isDir)
        have hmod := (h.inv.dir_bounds h.inv.cr3_isDir).1
        have hok := Mem.pageTableAdd_newTable hself (v := v) (by omega) hmod habsent hq hb.2.2
          (by omega) hne (frameAddr pf j)
        rw [hdir] at habsent hok
        exact ensures_of_ok hok (h.map_newTable hj hsp hmarked habsent hi hbit)

theorem frameAddr_ne_zero (pf : PoolFlags) (i : Nat) : frameAddr pf i ≠ 0 := by
  unfold frameAddr
  cases pf <;> simp only [PoolFlags.start] <;> omega

theorem space_current (s : MemState) (pf : PoolFlags) : (s.space pf).Current s := by
  cases pf with
  | kernel => trivial
  | user => rfl

theorem FrameInv.target_low (h : FrameInv g s) : target s.phys s.cr3 0xc0000 = some 0 := by
  have hhas : Space.kernel.Has s 0xc0000 := Space.has_low s (k := 0) (by decide)
  have hlow := h.low 0 (by decide)
  rw [h.target_kernel h.cr3_isDir hhas]
  exact hlow

/-- The loop of `malloc_page`. A range of user pages may end one page too far, in the kernel's half;
that page is mapped, so the loop stops there. -/
theorem FrameInv.ensures_mallocPageLoop (h : FrameInv g s) (hE : Tolerates E) (v n : Nat)
    (hpages : ∀ k < n, (s.space pf).Has s (vp + k) ∨ vp + k = 0xc0000)
    (hmarked : ∀ k < n, (s.space pf).Marked s (vp + k)) :
    Ensures (Mem.mallocPageLoop pf v n (4096 * vp)) E (fun r t => r = v ∧
      (∀ k < n, (s.space pf).Has s (vp + k)) ∧
      ∃ g', Grew pf (s.space pf) vp n g g' s t) s := by
  induction n generalizing g s vp with
  | zero =>
    exact ensures_pure ⟨rfl, fun k hk => absurd hk (Nat.not_lt_zero k), g, .refl h ..⟩
  | succ n ih =>
    unfold Mem.mallocPageLoop
    refine (h.ensures_palloc hE pf).bind ?_
    rintro _ _ ⟨i, hi, rfl, hbit, rfl⟩
    rw [if_neg (frameAddr_ne_zero pf i)]
    have hprep := Prepared.of_palloc h hi hbit (s.space pf)
    rcases hpages 0 (Nat.succ_pos n) with hhas | hend
    · refine (hprep.ensures_pageTableAdd hE hi hhas (space_current s pf)
        (hmarked 0 (Nat.succ_pos n)) (show 4096 * vp / 4096 = vp + 0 by omega)).bind ?_
      rintro _ t ⟨g', hgrew⟩
      have hlt := has_div_lt hhas
      have hspace : t.space pf = s.space pf := by
        obtain ⟨pool, mem, rfl⟩ := hgrew.state
        rfl
      have hnext : (4096 * vp + pgSize) % 2 ^ 32 = 4096 * (vp + 1) := by
        unfold pgSize
        omega
      rw [hnext]
      have hrest := @ih _ t (vp + 1) hgrew.inv
        (fun k hk => by
          rw [hspace, hgrew.has, Nat.add_assoc, Nat.add_comm 1]
          exact hpages (k + 1) (by omega))
        (fun k hk => by
          rw [hspace, hgrew.marked, Nat.add_assoc, Nat.add_comm 1]
          exact hmarked (k + 1) (by omega))
      refine hrest.mono ?_
      rintro r u ⟨hr, hall, g'', hgrew'⟩
      have hhasAll : ∀ k < n + 1, (s.space pf).Has s (vp + k) := by
        intro k hk
        cases k with
        | zero => exact hhas
        | succ k =>
          have := hall k (by omega)
          rwa [hspace, hgrew.has, Nat.add_assoc, Nat.add_comm 1] at this
      refine ⟨hr, hhasAll, g'', ?_⟩
      rw [hspace] at hgrew'
      rw [Nat.add_comm n 1]
      exact Grew.trans hgrew hgrew' fun k hk => hhasAll k (by omega)
    · refine ensures_bind (ensures_of_error (Mem.pageTableAdd_mapped
        (hprep.inv.selfMapped hprep.inv.cr3_isDir) hprep.inv.debug (by omega) (f := 0) ?_ _)
        (hE _ (by decide)))
      rw [show 4096 * vp / 4096 = 0xc0000 by omega]
      exact hprep.inv.target_low

/-- The running thread may use the range of `pf`. -/
def MemState.MayUse (s : MemState) (pf : PoolFlags) : Prop :=
  pf = .user → (s.task s.runningThread).pgdir ≠ 0

theorem FrameInv.range (h : FrameInv g s) (hproc : s.MayUse pf) :
    (s.vaddr pf).vaddrStart = 4096 * pf.firstPage ∧
    (s.vaddr pf).vaddrBitmap.btmpBytesLen = pf.rangeBytes := by
  cases pf with
  | kernel => exact h.kernelRange
  | user => exact h.userRange _ (hproc rfl)

/-- The pages of the range are pages of the space; the one behind may be the first of the other
half. -/
theorem MemState.MayUse.has (hproc : s.MayUse pf) {k : Nat} (hk : k ≤ 8 * pf.rangeBytes) :
    (s.space pf).Has s (pf.firstPage + k) ∨ pf.firstPage + k = 0xc0000 := by
  cases pf with
  | kernel =>
    simp only [PoolFlags.rangeBytes, PoolFlags.firstPage] at hk ⊢
    exact .inl ⟨by omega, by omega⟩
  | user =>
    simp only [PoolFlags.rangeBytes, PoolFlags.firstPage] at hk ⊢
    by_cases hend : 0x8048 + k = 0xc0000
    · exact .inr hend
    · exact .inl ⟨hproc rfl, by omega⟩

theorem FrameInv.ensures_vaddrGet (h : FrameInv g s) (hE : Tolerates E) (hproc : s.MayUse pf)
    {n : Nat} (hn : 0 < n) :
    Ensures (Mem.vaddrGet pf n) E (fun v t => (v = 0 ∧ t = s) ∨
      ∃ i, (s.vaddr pf).vaddrBitmap.ClearRun n i ∧ v = 4096 * (pf.firstPage + i) ∧
        t = s.setVaddrBitmap pf ((s.vaddr pf).vaddrBitmap.putRun true n i)) s := by
  obtain ⟨hstart, hlen⟩ := h.range hproc
  unfold Mem.vaddrGet
  refine Mem.ensures_read_bind ?_
  rw [h.debug]
  refine ensures_bind (Mem.ensures_ofPanic (fun r hr => ?_) fun p hp => ?_)
  · rcases bitmapScan_ok hn hr with ⟨rfl, -⟩ | ⟨i, rfl, hrun⟩
    · rw [if_pos rfl]
      exact ensures_pure (.inl ⟨rfl, rfl⟩)
    · rw [if_neg (by omega), Int.toNat_natCast, Mem.bitmapSetLoop_one]
      refine .inr ⟨i, hrun, ?_, rfl⟩
      have hbound := hrun.bound
      rw [hstart]
      rw [hlen] at hbound
      cases pf <;> simp only [PoolFlags.firstPage, PoolFlags.rangeBytes, pgSize] at hbound ⊢ <;>
        omega
  · have hfunc : p.func = "bitmap_scan" := by rw [bitmapScan_error hp]
    exact hE p (by rw [hfunc]; decide)

theorem marked_putRun (s : MemState) (pf : PoolFlags) (n i : Nat) {k : Nat} (hk : k < n) :
    (s.space pf).Marked (s.setVaddrBitmap pf ((s.vaddr pf).vaddrBitmap.putRun true n i))
      (pf.firstPage + i + k) := by
  cases pf with
  | kernel =>
    intro j _ hj
    show (s.kernelVaddr.vaddrBitmap.putRun true n i).bit j = true
    rw [Bitmap.bit_putRun, if_pos]
    simp only [PoolFlags.firstPage] at hj
    omega
  | user =>
    intro j _ hj
    show (Function.update s.task s.runningThread _ s.runningThread).userprogVaddr.vaddrBitmap.bit j
      = true
    rw [Function.update_self]
    show ((s.task s.runningThread).userprogVaddr.vaddrBitmap.putRun true n i).bit j = true
    rw [Bitmap.bit_putRun, if_pos]
    simp only [PoolFlags.firstPage] at hj
    omega

theorem FrameInv.setRun (h : FrameInv g s) (pf : PoolFlags) (n i : Nat) :
    FrameInv g (s.setVaddrBitmap pf ((s.vaddr pf).vaddrBitmap.putRun true n i)) := by
  refine h.setVaddr pf (Bitmap.putRun_len ..) fun k _ _ hbit => ?_
  rw [Bitmap.bit_putRun]
  split
  · rfl
  · exact hbit

theorem space_setVaddrBitmap (s : MemState) (pf pf' : PoolFlags) (b : Bitmap) :
    (s.setVaddrBitmap pf b).space pf' = s.space pf' := by
  cases pf <;> cases pf' <;> rfl

theorem FrameInv.ensures_mallocPage (h : FrameInv g s) (hE : Tolerates E) (hproc : s.MayUse pf)
    (n : Nat) :
    Ensures (Mem.mallocPage pf n) E (fun v t => (v = 0 ∧ t = s) ∨
      ∃ i g', 0 < n ∧ n < 3840 ∧ (s.vaddr pf).vaddrBitmap.ClearRun n i ∧
        v = 4096 * (pf.firstPage + i) ∧ (∀ k < n, (s.space pf).Has s (pf.firstPage + i + k)) ∧
        Grew pf (s.space pf) (pf.firstPage + i) n g g'
          (s.setVaddrBitmap pf ((s.vaddr pf).vaddrBitmap.putRun true n i)) t) s := by
  unfold Mem.mallocPage
  refine ensures_bind (Mem.ensures_assert h.debug (fun hn => ?_) (hE _ (by decide)))
  obtain ⟨hpos, hlt⟩ := of_decide_eq_true hn
  refine (h.ensures_vaddrGet hE hproc hpos).bind ?_
  rintro v t (⟨rfl, rfl⟩ | ⟨i, hrun, rfl, rfl⟩)
  · rw [if_pos rfl]
    exact ensures_pure (.inl ⟨rfl, rfl⟩)
  · have hne : 4096 * (pf.firstPage + i) ≠ 0 := by
      cases pf <;> simp only [PoolFlags.firstPage] <;> omega
    have hbound := hrun.bound
    rw [(h.range hproc).2] at hbound
    rw [if_neg hne]
    have hloop := @FrameInv.ensures_mallocPageLoop _ _ pf (pf.firstPage + i) E (h.setRun pf n i) hE
      (4096 * (pf.firstPage + i)) n
      (fun k hk => by
        rw [space_setVaddrBitmap, has_setVaddrBitmap, Nat.add_assoc]
        exact hproc.has (by omega))
      (fun k hk => by
        rw [space_setVaddrBitmap]
        exact marked_putRun s pf n i hk)
    refine hloop.mono ?_
    rintro r t ⟨rfl, hall, g', hgrew⟩
    rw [space_setVaddrBitmap] at hall hgrew
    exact .inr ⟨i, g', hpos, hlt, hrun, rfl, fun k hk => has_setVaddrBitmap.mp (hall k hk), hgrew⟩

end Malloc

/-! ### `mfree_page` -/

/-- The pages `vp` to `vp + n - 1` of `sp` have frames of the pool `pf`, and none of them is a page
directory. -/
def Allocated (pf : PoolFlags) (sp : Space) (vp n : Nat) (g : Frames) (s : MemState) : Prop :=
  ∀ k < n, sp.Has s (vp + k) ∧ ∃ i < 3840,
    target s.phys (sp.dir g) (vp + k) = some (frameAddr pf i) ∧ ¬ g.IsDir (frameAddr pf i)

/-- A byte of the entry of a page of the space. -/
def Space.TableByte (g : Frames) (s : MemState) (sp : Space) (a : Nat) : Prop :=
  ∃ vp e, sp.Has s vp ∧ entry s.phys (sp.dir g) vp = some e ∧ e ≤ a ∧ a < e + 4

/-- The pages `vp` to `vp + n - 1` of `sp` have lost their frames, and nothing else has changed. -/
structure Shrank (sp : Space) (vp n : Nat) (g g' : Frames) (s s' : MemState) : Prop where
  inv : FrameInv g' s'
  dir : g'.dir = g.dir
  state : ∃ pool mem, s' = (s.setPool pool).setPhys mem
  pools : PoolsAgree s.pool s'.pool
  freed : ∀ f, ∀ k < n, g.own f = some (.page sp (vp + k)) → g'.own f = none
  own : ∀ f, (∀ k < n, g.own f ≠ some (.page sp (vp + k))) → g'.own f = g.own f
  keeps : ∀ (sp' : Space) vp', sp'.Has s vp' → ¬ (sp' = sp ∧ vp ≤ vp' ∧ vp' < vp + n) →
    target s'.phys (sp'.dir g) vp' = target s.phys (sp'.dir g) vp'
  gone : ∀ k < n, target s'.phys (sp.dir g) (vp + k) = none
  bytes : ∀ f, g.Plain f → ∀ a, f ≤ a → a < f + 4096 → s'.phys a = s.phys a
  tables : ∀ a, ¬ sp.TableByte g s a → s'.phys a = s.phys a

section Free

variable {g g' : Frames} {s s' : MemState} {sp : Space} {pf : PoolFlags} {vp n : Nat}

theorem frameAddr_bounds (pf : PoolFlags) {i : Nat} (hi : i < 3840) :
    0x200000 ≤ frameAddr pf i ∧ frameAddr pf i < 0x2000000 ∧ frameAddr pf i % 4096 = 0 := by
  unfold frameAddr pgSize
  cases pf <;> simp only [PoolFlags.start] <;> omega

theorem Mem.pageTablePteRemove_ok {v : Nat} (hself : SelfMapped s.phys s.cr3) (hv : v < 2 ^ 32)
    {e : Nat} (he : entry s.phys s.cr3 (v / 4096) = some e) :
    pageTablePteRemove v s =
      .ok ((), s.setPhys (store32 s.phys e (load32 s.phys e / 2 * 2))) := by
  have hpte := walk_ptePtr hself hv he
  rw [pageTablePteRemove, bind_of_ok (loadWord_ok hpte), and_not_present (load32_lt ..)]
  exact storeWord_ok hpte _

theorem FrameInv.mfreePageLoop_succ (h : FrameInv g s) (hcur : sp.Current s) (hsp : sp.Has s vp)
    {e i : Nat} (he : entry s.phys (sp.dir g) vp = some e) (hi : i < 3840)
    (hf : target s.phys (sp.dir g) vp = some (frameAddr pf i)) (n : Nat) :
    Mem.mfreePageLoop pf (n + 1) (4096 * vp) s =
      Mem.mfreePageLoop pf n (4096 * (vp + 1))
        ((s.setPool (Function.update s.pool pf ((s.pool pf).put i false))).setPhys
          (store32 s.phys e (load32 s.phys e / 2 * 2))) := by
  have hlt := has_div_lt hsp
  have hb := frameAddr_bounds pf hi
  have hself := h.selfMapped h.cr3_isDir
  have hv2p := Mem.addrV2p_ok hself (v := 4096 * vp) (by omega) (f := frameAddr pf i)
    (by rw [show 4096 * vp / 4096 = vp by omega, h.target_current hsp hcur, hf])
  rw [show 4096 * vp % 4096 = 0 by omega, Nat.add_zero] at hv2p
  have hpfree : Mem.pfree (frameAddr pf i) s =
      .ok ((), s.setPool (Function.update s.pool pf ((s.pool pf).put i false))) := by
    rw [Mem.pfree, Mem.read_bind, h.laidOut.pfree_frame _ pf hi, bind_of_ok Mem.ofPanic_ok]
    rfl
  have hremove := Mem.pageTablePteRemove_ok (v := 4096 * vp)
    (s := s.setPool (Function.update s.pool pf ((s.pool pf).put i false))) hself (by omega)
    (e := e) (by
      rw [show 4096 * vp / 4096 = vp by omega]
      exact (h.entry_current hsp hcur).trans he)
  have hnext : (4096 * vp + pgSize) % 2 ^ 32 = 4096 * (vp + 1) := by
    unfold pgSize
    omega
  have hstart := h.laidOut.start
  have hlo : pf.start ≤ frameAddr pf i := Nat.le_add_right ..
  rw [Mem.mfreePageLoop, bind_of_ok hv2p, Mem.read_bind, hnext]
  cases pf with
  | user =>
    dsimp only
    rw [bind_of_ok (Mem.assert_ok _ (decide_eq_true ⟨hb.2.2, by rw [hstart]; exact hlo⟩)),
      bind_of_ok hpfree, bind_of_ok hremove]
    rfl
  | kernel =>
    have hhi : frameAddr .kernel i < PoolFlags.user.start := by
      unfold frameAddr pgSize
      simp only [PoolFlags.start]
      omega
    dsimp only
    rw [bind_of_ok (Mem.assert_ok _ (decide_eq_true
        ⟨hb.2.2, by rw [hstart]; exact hlo, by rw [hstart]; exact hhi⟩)),
      bind_of_ok hpfree, bind_of_ok hremove]
    rfl

theorem FrameInv.not_tableByte (h : FrameInv g s) {d a : Nat} (hd : g.IsDir d) (hlow : d ≤ a)
    (hhigh : a < d + 4096) : ¬ sp.TableByte g s a := by
  rintro ⟨vp, e, hsp, he, hle, hlt⟩
  obtain ⟨b, hb, rfl, hrole⟩ := h.entry_cases hsp he
  obtain ⟨hmod, hbounds⟩ := h.dir_bounds hd
  obtain rfl : b = d := by omega
  rcases hrole with ⟨rfl, hk⟩ | ⟨t, rfl, ht⟩
  · obtain ⟨hge, hlt'⟩ := hsp
    unfold kernelTable at hk
    omega
  · exact h.not_isDir_of_own ht (fun _ _ => nofun) hd

namespace Shrank

theorem refl (h : FrameInv g s) (sp : Space) (vp : Nat) : Shrank sp vp 0 g g s s :=
  ⟨h, rfl, ⟨s.pool, s.phys, rfl⟩, .refl _, fun _ k hk => absurd hk (Nat.not_lt_zero k),
    fun _ _ => rfl, fun _ _ _ _ => rfl, fun k hk => absurd hk (Nat.not_lt_zero k),
    fun _ _ _ _ _ => rfl, fun _ _ => rfl⟩

theorem has (h : Shrank sp vp n g g' s s') {sp' : Space} {vp' : Nat} :
    sp'.Has s' vp' ↔ sp'.Has s vp' := by
  obtain ⟨pool, mem, rfl⟩ := h.state
  exact Iff.rfl

theorem current (h : Shrank sp vp n g g' s s') {sp' : Space} :
    sp'.Current s' ↔ sp'.Current s := by
  obtain ⟨pool, mem, rfl⟩ := h.state
  exact Iff.rfl

theorem isDir (h : Shrank sp vp n g g' s s') {d : Nat} : g'.IsDir d ↔ g.IsDir d := by
  unfold Frames.IsDir
  rw [h.dir]

theorem plain (h : Shrank sp vp n g g' s s') {f : Nat} (hf : g.Plain f) : g'.Plain f := by
  refine hf.of_own h.dir fun t i ht => ?_
  by_cases hpage : ∃ k < n, g.own f = some (.page sp (vp + k))
  · obtain ⟨k, hk, hk'⟩ := hpage
    rw [h.freed f k hk hk'] at ht
    exact nomatch ht
  · rw [h.own f fun k hk hk' => hpage ⟨k, hk, hk'⟩] at ht
    exact hf.notTable t i ht

theorem tableByte (h : Shrank sp vp n g g' s s') (hinv : FrameInv g s) {sp' : Space} {a : Nat}
    (ha : sp'.TableByte g' s' a) : sp'.TableByte g s a := by
  obtain ⟨vp', e, hsp, he, hlow, hhigh⟩ := ha
  have hsp' := h.has.mp hsp
  have hlt := FrameInv.has_div_lt hsp'
  refine ⟨vp', e, hsp', ?_, hlow, hhigh⟩
  rw [Space.dir_congr h.dir] at he
  rw [← he]
  refine (entry_congr (load32_congr fun b hb hb' => h.tables b ?_)).symm
  exact hinv.not_tableByte (FrameInv.space_isDir g sp') (by omega) (by omega)

theorem allocated (h : Shrank sp vp n g g' s s') {pf' : PoolFlags} {sp' : Space} {vp' m : Nat}
    (halloc : Allocated pf' sp' vp' m g s)
    (hapart : ∀ k < m, ¬ (sp' = sp ∧ vp ≤ vp' + k ∧ vp' + k < vp + n)) :
    Allocated pf' sp' vp' m g' s' := by
  intro k hk
  obtain ⟨hsp, i, hi, hf, hdir⟩ := halloc k hk
  refine ⟨h.has.mpr hsp, i, hi, ?_, fun hd => hdir (h.isDir.mp hd)⟩
  rw [Space.dir_congr h.dir, h.keeps sp' (vp' + k) hsp (hapart k hk), hf]

theorem one (h : FrameInv g s) (hsp : sp.Has s vp) {e i : Nat}
    (he : entry s.phys (sp.dir g) vp = some e) (hi : i < 3840)
    (hf : target s.phys (sp.dir g) vp = some (frameAddr pf i))
    (hdir : ¬ g.IsDir (frameAddr pf i)) :
    Shrank sp vp 1 g (g.setOwn (frameAddr pf i) none) s
      ((s.setPool (Function.update s.pool pf ((s.pool pf).put i false))).setPhys
        (store32 s.phys e (load32 s.phys e / 2 * 2))) := by
  have hb := frameAddr_bounds pf hi
  have hw := load32_lt s.phys e
  have hown := (h.page sp vp _ hsp hf).resolve_left (by omega)
  obtain ⟨hinv, hgone⟩ := h.unmap hsp he hi hf hdir (w := load32 s.phys e / 2 * 2) (by omega)
    (by unfold Present; omega)
  refine ⟨hinv, rfl, ⟨_, _, rfl⟩, (PoolsAgree.refl _).put pf hi false, fun f k hk hfk => ?_,
    fun f hne => ?_, fun sp' vp' hsp' hne => ?_, fun k hk => ?_, fun f hplain a ha ha' => ?_,
    fun a ha => ?_⟩
  · obtain rfl : k = 0 := by omega
    by_cases heq : f = frameAddr pf i
    · rw [heq, g.own_setOwn_self]
    · exact absurd (h.frame_unique hfk hown) heq
  · refine g.own_setOwn_of_ne (fun heq => ?_) _
    exact hne 0 Nat.one_pos (by rw [heq, Nat.add_zero]; exact hown)
  · exact h.target_store_of_ne hsp he _ hsp' (fun heq => hne ⟨heq.1, by omega, by omega⟩)
  · obtain rfl : k = 0 := by omega
    exact hgone
  · have hout := h.entry_of_plain hplain hsp he
    exact store32_apply_of_not (by omega)
  · refine store32_apply_of_not ?_
    by_contra hin
    exact ha ⟨vp, e, hsp, he, by omega, by omega⟩

theorem trans {g'' : Frames} {s'' : MemState} {m : Nat} (hinv : FrameInv g s)
    (h : Shrank sp vp n g g' s s') (h' : Shrank sp (vp + n) m g' g'' s' s'')
    (hsp : ∀ k < n + m, sp.Has s (vp + k)) :
    Shrank sp vp (n + m) g g'' s s'' := by
  have hdir := fun sp' : Space => sp'.dir_congr h.dir
  refine ⟨h'.inv, h'.dir.trans h.dir, ?_, h.pools.trans h'.pools, fun f k hk hf => ?_,
    fun f hne => ?_, fun sp' vp' hsp' hne => ?_, fun k hk => ?_, fun f hf a ha ha' => ?_,
    fun a ha => ?_⟩
  · obtain ⟨pool, mem, hstate⟩ := h.state
    obtain ⟨pool', mem', hstate'⟩ := h'.state
    exact ⟨pool', mem', by rw [hstate', hstate]; rfl⟩
  · by_cases hlt : k < n
    · have hnone := h.freed f k hlt hf
      rw [h'.own f fun j _ hj => by rw [hnone] at hj; exact nomatch hj]
      exact hnone
    · refine h'.freed f (k - n) (by omega) ?_
      rw [h.own f, hf, show vp + n + (k - n) = vp + k by omega]
      intro j hj hfj
      have := (Role.page.inj (Option.some.inj (hf.symm.trans hfj))).2
      omega
  · have hfirst := h.own f fun k hk => hne k (by omega)
    rw [h'.own f, hfirst]
    intro k hk hf
    rw [hfirst, Nat.add_assoc] at hf
    exact hne (n + k) (by omega) hf
  · have hsecond := h'.keeps sp' vp' (h.has.mpr hsp') (fun heq => hne ⟨heq.1, by omega, by omega⟩)
    rw [hdir] at hsecond
    exact hsecond.trans (h.keeps sp' vp' hsp' (fun heq => hne ⟨heq.1, by omega, by omega⟩))
  · by_cases hlt : k < n
    · have hkeep := h'.keeps sp (vp + k) (h.has.mpr (hsp k hk)) (by omega)
      rw [hdir] at hkeep
      rw [hkeep, h.gone k hlt]
    · have hgone := h'.gone (k - n) (by omega)
      rwa [hdir, show vp + n + (k - n) = vp + k by omega] at hgone
  · rw [h'.bytes f (h.plain hf) a ha ha', h.bytes f hf a ha ha']
  · rw [h'.tables a fun hbyte => ha (h.tableByte hinv hbyte), h.tables a ha]

end Shrank

theorem FrameInv.mfreePageLoop_ok (h : FrameInv g s) (hcur : sp.Current s)
    (halloc : Allocated pf sp vp n g s) :
    ∃ g' s', Mem.mfreePageLoop pf n (4096 * vp) s = .ok ((), s') ∧ Shrank sp vp n g g' s s' := by
  induction n generalizing g s vp with
  | zero => exact ⟨g, s, rfl, .refl h sp vp⟩
  | succ n ih =>
    obtain ⟨hsp, i, hi, hf, hdir⟩ := halloc 0 (Nat.succ_pos n)
    obtain ⟨e, he, -⟩ := target_eq_some.mp hf
    have hone := Shrank.one h hsp he hi hf hdir
    have htail : Allocated pf sp (vp + 1) n g s := by
      intro k hk
      rw [show vp + 1 + k = vp + (k + 1) by omega]
      exact halloc (k + 1) (by omega)
    obtain ⟨g', s', hloop, hshrank⟩ := ih hone.inv (hone.current.mpr hcur)
      (hone.allocated htail (by omega))
    refine ⟨g', s', ?_, ?_⟩
    · rw [show vp = vp + 0 from rfl, h.mfreePageLoop_succ hcur hsp he hi hf]
      exact hloop
    · rw [Nat.add_comm n 1]
      exact Shrank.trans h hone hshrank fun k hk => (halloc k (by omega)).1

theorem Shrank.vaddr (h : Shrank sp vp n g g' s s') (pf : PoolFlags) :
    s'.vaddr pf = s.vaddr pf := by
  obtain ⟨pool, mem, rfl⟩ := h.state
  cases pf <;> rfl

theorem Shrank.space (h : Shrank sp vp n g g' s s') (pf : PoolFlags) :
    s'.space pf = s.space pf := by
  obtain ⟨pool, mem, rfl⟩ := h.state
  cases pf <;> rfl

theorem FrameInv.mfreePage_ok (h : FrameInv g s) (hproc : s.MayUse pf) (hn : 0 < n) {i : Nat}
    (halloc : Allocated pf (s.space pf) (pf.firstPage + i) n g s) :
    ∃ g' s', Shrank (s.space pf) (pf.firstPage + i) n g g' s s' ∧
      Mem.mfreePage pf (4096 * (pf.firstPage + i)) n s =
        .ok ((), s'.setVaddrBitmap pf ((s.vaddr pf).vaddrBitmap.putRun false n i)) ∧
      FrameInv g' (s'.setVaddrBitmap pf ((s.vaddr pf).vaddrBitmap.putRun false n i)) := by
  obtain ⟨g', s', hloop, hshrank⟩ := h.mfreePageLoop_ok (space_current s pf) halloc
  obtain ⟨hsp, j, hj, hf, -⟩ := halloc 0 hn
  rw [Nat.add_zero] at hsp hf
  have hlt := has_div_lt hsp
  have hb := frameAddr_bounds pf hj
  refine ⟨g', s', hshrank, ?_, ?_⟩
  · have hv2p := Mem.addrV2p_ok (h.selfMapped h.cr3_isDir) (v := 4096 * (pf.firstPage + i))
      (by omega) (f := frameAddr pf j) (by
        rw [show 4096 * (pf.firstPage + i) / 4096 = pf.firstPage + i by omega,
          h.target_current hsp (space_current s pf), hf])
    rw [show 4096 * (pf.firstPage + i) % 4096 = 0 by omega, Nat.add_zero] at hv2p
    have hidx : (4096 * (pf.firstPage + i) + 2 ^ 32 - (s.vaddr pf).vaddrStart) % 2 ^ 32 / pgSize
        = i := by
      rw [(h.range hproc).1]
      unfold pgSize
      omega
    rw [Mem.mfreePage, bind_of_ok (Mem.assert_ok _ (decide_eq_true
        ⟨hn, by unfold pgSize; omega⟩)), bind_of_ok hv2p,
      bind_of_ok (Mem.assert_ok _ (decide_eq_true ⟨hb.2.2, by omega⟩)), Mem.read_bind,
      h.laidOut.pfreePool_frame pf hj, bind_of_ok hloop, Mem.vaddrRemove, Mem.read_bind]
    rw [hshrank.vaddr pf, hidx, Mem.bitmapSetLoop_zero]
    rfl
  · rw [← hshrank.vaddr pf]
    refine hshrank.inv.setVaddr pf (Bitmap.putRun_len ..) fun k hmapped _ hbit => ?_
    rw [Bitmap.bit_putRun, if_neg, hbit]
    intro hrun
    refine hmapped ?_
    have hgone := hshrank.gone (k - i) (by omega)
    rwa [show pf.firstPage + i + (k - i) = pf.firstPage + k by omega, ← hshrank.space pf,
      ← Space.dir_congr hshrank.dir] at hgone

end Free

end OriginOS
