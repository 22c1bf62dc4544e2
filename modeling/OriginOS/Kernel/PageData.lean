import OriginOS.Kernel.PageSteps

/-! Writes to mapped pages, and the operations that write to the pages they map: `get_kernel_pages`,
`create_user_vaddr_bitmap` and `create_page_dir`. -/

namespace OriginOS

open Lib

theorem Mem.memsetLoop_add (value : UInt8) (m n va : Nat) (s : MemState) :
    memsetLoop value (m + n) va s = (memsetLoop value m va >>= fun _ =>
      memsetLoop value n (va + m)) s := by
  induction m generalizing va s with
  | zero => rw [Nat.zero_add]; rfl
  | succ m ih =>
    rw [Nat.succ_add, memsetLoop, memsetLoop, bind_apply, bind_apply, bind_apply]
    cases storeByte va value s with
    | error e => rfl
    | ok r =>
      have hrest := ih (va + 1) r.2
      rw [bind_apply, Nat.add_assoc, Nat.add_comm 1 m] at hrest
      exact hrest

structure Wrote (g : Frames) (s : MemState) (mem : Nat → UInt8) : Prop where
  inv : FrameInv g (s.setPhys mem)
  keeps : ∀ (sp : Space) vp, sp.Has s vp →
    target mem (sp.dir g) vp = target s.phys (sp.dir g) vp

namespace Wrote

variable {g : Frames} {s : MemState} {mem mem' : Nat → UInt8}

theorem refl (h : FrameInv g s) : Wrote g s s.phys := ⟨h, fun _ _ _ => rfl⟩

theorem trans (h : Wrote g s mem) (h' : Wrote g (s.setPhys mem) mem') : Wrote g s mem' :=
  ⟨h'.inv, fun sp vp hsp => (h'.keeps sp vp hsp).trans (h.keeps sp vp hsp)⟩

theorem of_plain (h : FrameInv g s) {f : Nat} (hf : g.Plain f)
    (hagree : ∀ a, a < f ∨ f + 4096 ≤ a → mem a = s.phys a) : Wrote g s mem :=
  ⟨h.write hf hagree, fun _ _ hsp => h.target_of_plain hf hagree hsp⟩

end Wrote

namespace FrameInv

variable {g : Frames} {s : MemState} {sp : Space} {pf : PoolFlags} {vp n f : Nat}

theorem walk_plain (h : FrameInv g s) (hcur : sp.Current s) (hsp : sp.Has s vp)
    (hf : target s.phys (sp.dir g) vp = some f) (hplain : g.Plain f) {mem : Nat → UInt8}
    (hagree : ∀ a, a < f ∨ f + 4096 ≤ a → mem a = s.phys a) {k : Nat} (hk : k < 4096) :
    walk mem s.cr3 (4096 * vp + k) = some (f + k) := by
  have hwrote := Wrote.of_plain h hplain hagree
  have hkeep := hwrote.keeps sp vp hsp
  have hhere := hwrote.inv.target_current (show sp.Has (s.setPhys mem) vp from hsp) hcur
  exact walk_of_target (hhere.trans (hkeep.trans hf)) hk

theorem plain_of_allocated (h : FrameInv g s) (halloc : Allocated pf sp vp n g s) {k : Nat}
    (hk : k < n) : ∃ f, target s.phys (sp.dir g) (vp + k) = some f ∧ g.Plain f ∧
      g.own f = some (.page sp (vp + k)) := by
  obtain ⟨hsp, i, hi, hf, hdir⟩ := halloc k hk
  have hown := (h.page sp _ _ hsp hf).resolve_left (by have := frameAddr_bounds pf hi; omega)
  exact ⟨_, hf, h.plain_of_page hown hdir, hown⟩

theorem memsetPages (h : FrameInv g s) (hcur : sp.Current s) (halloc : Allocated pf sp vp n g s) :
    ∃ mem, Mem.memsetLoop 0 (n * 4096) (4096 * vp) s = .ok ((), s.setPhys mem) ∧ Wrote g s mem ∧
      (∀ f, ∀ k < n, g.own f = some (.page sp (vp + k)) → ∀ a, f ≤ a → a < f + 4096 → mem a = 0) ∧
      ∀ a, (∀ f, ∀ k < n, g.own f = some (.page sp (vp + k)) → a < f ∨ f + 4096 ≤ a) →
        mem a = s.phys a := by
  induction n with
  | zero =>
    refine ⟨s.phys, ?_, .refl h, fun f k hk => absurd hk (Nat.not_lt_zero k), fun _ _ => rfl⟩
    rw [Nat.zero_mul]
    rfl
  | succ n ih =>
    obtain ⟨mem, hloop, hwrote, hzero, hsame⟩ := ih fun k hk => halloc k (by omega)
    obtain ⟨f, hf, hplain, hown⟩ := h.plain_of_allocated halloc (Nat.lt_succ_self n)
    have hsp := (halloc n (Nat.lt_succ_self n)).1
    have hf' := (hwrote.keeps sp _ hsp).trans hf
    have hpage : Mem.memsetLoop 0 4096 (4096 * (vp + n)) (s.setPhys mem) =
        .ok ((), (s.setPhys mem).setPhys (fill mem f 4096 0)) :=
      Mem.memsetLoop_ok 0 fun k hk mem' hmem' =>
        hwrote.inv.walk_plain hcur hsp hf' hplain hmem' hk
    refine ⟨fill mem f 4096 0, ?_, hwrote.trans (.of_plain hwrote.inv hplain fun a ha =>
      fill_apply_of_not ha), fun f' k hk hown' a ha ha' => ?_, fun a ha => ?_⟩
    · rw [Nat.succ_mul, Mem.memsetLoop_add, bind_of_ok hloop,
        show 4096 * vp + n * 4096 = 4096 * (vp + n) by omega, hpage]
      rfl
    · by_cases hlast : f' = f
      · exact fill_apply_of_mem (by omega)
      · -- an earlier page: frames are aligned, so the last one does not touch it
        have hlt : k < n := by
          refine Nat.lt_of_le_of_ne (by omega) fun heq => hlast ?_
          rw [heq] at hown'
          exact h.frame_unique hown' hown
        have hb := h.own_bounds (f := f) (by rw [hown]; exact Option.some_ne_none _)
        have hb' := h.own_bounds (f := f') (by rw [hown']; exact Option.some_ne_none _)
        rw [fill_apply_of_not (by omega)]
        exact hzero f' k hlt hown' a ha ha'
    · rw [fill_apply_of_not (ha f n (Nat.lt_succ_self n) hown)]
      exact hsame a fun f' k hk hown' => ha f' k (by omega) hown'

end FrameInv

/-! ### `get_kernel_pages` -/

def Zeroed (sp : Space) (vp n : Nat) (g : Frames) (s : MemState) : Prop :=
  ∀ f, ∀ k < n, g.own f = some (.page sp (vp + k)) → ∀ a, f ≤ a → a < f + 4096 → s.phys a = 0

namespace Grew

variable {g g' : Frames} {s s' : MemState} {sp : Space} {pf : PoolFlags} {vp n : Nat}

theorem isDir (h : Grew pf sp vp n g g' s s') {d : Nat} : g'.IsDir d ↔ g.IsDir d := by
  unfold Frames.IsDir
  rw [h.dir]

theorem not_isDir (hinv : FrameInv g s) {f : Nat} (hb : 0x200000 ≤ f) (hf : g.own f = none) :
    ¬ g.IsDir f := by
  intro hd
  rcases hinv.isDir_cases hd with rfl | ⟨t, ht, rfl⟩
  · exact absurd hb (by decide)
  · rw [hinv.own_dir ht] at hf
    exact nomatch hf

theorem allocated (h : Grew pf sp vp n g g' s s') (hinv : FrameInv g s)
    (hsp : ∀ k < n, sp.Has s (vp + k)) : Allocated pf sp vp n g' s' := by
  intro k hk
  obtain ⟨i, hi, hf, hnone⟩ := h.mapped k hk
  refine ⟨h.has.mpr (hsp k hk), i, hi, ?_, fun hd => ?_⟩
  · rw [Space.dir_congr h.dir, hf]
  · exact not_isDir hinv (frameAddr_bounds pf hi).1 hnone (h.isDir.mp hd)

theorem allocated_of (h : Grew pf sp vp n g g' s s') {pf' : PoolFlags} {sp' : Space} {vp' m : Nat}
    (halloc : Allocated pf' sp' vp' m g s) : Allocated pf' sp' vp' m g' s' := by
  intro k hk
  obtain ⟨hsp, i, hi, hf, hdir⟩ := halloc k hk
  refine ⟨h.has.mpr hsp, i, hi, ?_, fun hd => hdir (h.isDir.mp hd)⟩
  rw [Space.dir_congr h.dir, h.keeps sp' (vp' + k) hsp, hf]
  rintro ⟨rfl, hlo, hhi⟩
  have hwas := h.was (vp' + k - vp) (by omega)
  rw [show vp + (vp' + k - vp) = vp' + k by omega, hf] at hwas
  exact nomatch hwas

theorem own_of_new (h : Grew pf sp vp n g g' s s') {f k : Nat} (hk : k < n)
    (hf : g'.own f = some (.page sp (vp + k))) : g.own f = none := by
  obtain ⟨i, hi, htarget, hnone⟩ := h.mapped k hk
  have hmap := (h.inv.mapped f sp _ hf).2
  rw [Space.dir_congr h.dir, htarget] at hmap
  rw [← Option.some.inj hmap]
  exact hnone

theorem write (h : Grew pf sp vp n g g' s s') (hsp : ∀ k < n, sp.Has s (vp + k))
    {mem : Nat → UInt8} (hwrote : Wrote g' s' mem)
    (hsame : ∀ a, (∀ f, ∀ k < n, g'.own f = some (.page sp (vp + k)) → a < f ∨ f + 4096 ≤ a) →
      mem a = s'.phys a) :
    Grew pf sp vp n g g' s (s'.setPhys mem) := by
  have hkeep : ∀ (sp' : Space) vp', sp'.Has s vp' →
      target mem (sp'.dir g) vp' = target s'.phys (sp'.dir g) vp' := by
    intro sp' vp' hsp'
    rw [← Space.dir_congr h.dir]
    exact hwrote.keeps sp' vp' (h.has.mpr hsp')
  refine ⟨hwrote.inv, h.dir, ?_, h.pools, h.own, h.fresh,
    fun sp' vp' hsp' hne => (hkeep sp' vp' hsp').trans (h.keeps sp' vp' hsp' hne), h.was,
    fun k hk => ?_, fun f hused hf a ha ha' => ?_⟩
  · obtain ⟨pool, mem', hstate⟩ := h.state
    exact ⟨pool, mem, by rw [hstate]; rfl⟩
  · obtain ⟨i, hi, htarget, hnone⟩ := h.mapped k hk
    exact ⟨i, hi, (hkeep sp _ (hsp k hk)).trans htarget, hnone⟩
  · rw [← h.bytes f hused hf a ha ha']
    refine hsame a fun f' k hk hown => ?_
    have hnone := h.own_of_new hk hown
    have hb := h.inv.own_bounds (f := f') (by rw [hown]; exact Option.some_ne_none _)
    have haligned := hf.aligned
    have hne : f ≠ f' := by
      rintro rfl
      rcases hused with hused | hlow
      · exact hused hnone
      · omega
    omega

end Grew

section KernelPages

variable {g : Frames} {s : MemState} {E : Stop → Prop}

/-- What `malloc_page` has done, when its pages have been cleared as well. -/
def Provided (pf : PoolFlags) (n v : Nat) (g : Frames) (s t : MemState) : Prop :=
  ∃ i g', 0 < n ∧ n < 3840 ∧ (s.vaddr pf).vaddrBitmap.ClearRun n i ∧
    v = 4096 * (pf.firstPage + i) ∧ (∀ k < n, (s.space pf).Has s (pf.firstPage + i + k)) ∧
    Grew pf (s.space pf) (pf.firstPage + i) n g g'
      (s.setVaddrBitmap pf ((s.vaddr pf).vaddrBitmap.putRun true n i)) t ∧
    Zeroed (s.space pf) (pf.firstPage + i) n g' t

theorem FrameInv.ensures_zeroPages {pf : PoolFlags} (h : FrameInv g s) (hE : Tolerates E)
    (hproc : s.MayUse pf) (n : Nat) :
    Ensures (do
      let vaddr ← Mem.mallocPage pf n
      if vaddr ≠ 0 then Mem.memset vaddr 0 (n * pgSize)
      pure vaddr) E (fun v t => (v = 0 ∧ t = s) ∨ v ≠ 0 ∧ Provided pf n v g s t) s := by
  refine (h.ensures_mallocPage hE hproc n).bind ?_
  rintro v t (⟨rfl, rfl⟩ | ⟨i, g', hpos, hlt, hrun, rfl, hhas, hgrew⟩)
  · exact .inl ⟨rfl, rfl⟩
  · have hne : 4096 * (pf.firstPage + i) ≠ 0 := by
      cases pf <;> simp only [PoolFlags.firstPage] <;> omega
    have hhas' : ∀ k < n, (s.space pf).Has (s.setVaddrBitmap pf
        ((s.vaddr pf).vaddrBitmap.putRun true n i)) (pf.firstPage + i + k) :=
      fun k hk => has_setVaddrBitmap.mpr (hhas k hk)
    have hcur : (s.space pf).Current t := by
      refine hgrew.current.mpr ?_
      rw [← space_setVaddrBitmap s pf pf ((s.vaddr pf).vaddrBitmap.putRun true n i)]
      exact space_current _ pf
    obtain ⟨mem, hloop, hwrote, hzero, hsame⟩ := hgrew.inv.memsetPages hcur
      (hgrew.allocated (h.setRun pf n i) hhas')
    have hset : Mem.memset (4096 * (pf.firstPage + i)) 0 (n * pgSize) t =
        .ok ((), t.setPhys mem) := by
      rw [Mem.memset, bind_of_ok (Mem.assert_ok _ (decide_eq_true hne))]
      exact hloop
    rw [if_pos hne]
    refine ensures_bind_of_ok hset (ensures_pure
      (.inr ⟨hne, i, g', hpos, hlt, hrun, rfl, hhas, ?_⟩))
    exact ⟨hgrew.write hhas' hwrote hsame, hzero⟩

end KernelPages

/-! ### A new page directory -/

@[simps]
def MemState.setTask (s : MemState) (u : Nat) (task : Task) : MemState :=
  { s with task := Function.update s.task u task }

def Frames.setDir (g : Frames) (u d : Nat) : Frames := { g with dir := Function.update g.dir u d }

section NewDir

variable {g : Frames} {s : MemState} {u d : Nat} {task : Task} {sp : Space} {vp : Nat}

theorem Space.dir_setDir_of_ne (hne : sp ≠ .user u) : sp.dir (g.setDir u d) = sp.dir g := by
  cases sp with
  | kernel => rfl
  | user t => exact Function.update_of_ne (fun heq => hne (by rw [heq])) ..

theorem Space.has_setTask_of_ne (hne : sp ≠ .user u) :
    sp.Has (s.setTask u task) vp ↔ sp.Has s vp := by
  cases sp with
  | kernel => exact Iff.rfl
  | user t =>
    simp only [Space.Has, MemState.setTask_task]
    rw [Function.update_of_ne fun heq => hne (by rw [heq])]

theorem Space.marked_setTask_of_ne (hne : sp ≠ .user u) :
    sp.Marked (s.setTask u task) vp ↔ sp.Marked s vp := by
  cases sp with
  | kernel => exact Iff.rfl
  | user t =>
    simp only [Space.Marked, MemState.setTask_task]
    rw [Function.update_of_ne fun heq => hne (by rw [heq])]

theorem Frames.isDir_setDir {d' : Nat} (h : (g.setDir u d).IsDir d') : d' = d ∨ g.IsDir d' := by
  rcases h with h | ⟨t, ht⟩
  · exact .inr (.inl h)
  · by_cases heq : t = u
    · rw [heq] at ht
      exact .inl (ht.symm.trans (Function.update_self ..))
    · refine .inr (.inr ⟨t, ?_⟩)
      rw [← ht]
      exact (Function.update_of_ne heq ..).symm

theorem FrameInv.setTask (h : FrameInv g s) (hu : (s.task u).pgdir = 0) (htask : task.pgdir = 0) :
    FrameInv g (s.setTask u task) := by
  have hpg : ∀ t, ((s.setTask u task).task t).pgdir = (s.task t).pgdir := by
    intro t
    rw [MemState.setTask_task, Function.update_apply]
    split
    · next heq => rw [heq, hu, htask]
    · rfl
  have hne : ∀ {t}, (s.task t).pgdir ≠ 0 → t ≠ u := fun ht heq => ht (heq ▸ hu)
  have hhas : ∀ {sp : Space} {vp}, sp.Has (s.setTask u task) vp ↔ sp.Has s vp := by
    intro sp vp
    cases sp with
    | kernel => exact Iff.rfl
    | user t => simp only [Space.Has, hpg]
  refine ⟨h.debug, h.laidOut, h.bit, h.pool, h.cr3, fun t ht => h.thread t (hpg t ▸ ht),
    fun t ht => ?_, fun t v ht heq => ?_, h.selfMap, h.kernelPde, h.bootFirst,
    h.bootRest, fun t ht => ?_,
    fun sp vp f hsp hf => h.page sp vp f (hhas.mp hsp) hf, fun f sp vp hf => ?_, h.low,
    fun sp vp hsp hmapped => ?_, h.kernelRange, fun t ht => ?_⟩
  · rw [hpg] at ht ⊢
    exact h.process t ht
  · rw [hpg] at ht
    rw [hpg, hpg] at heq
    exact h.pgdirInj t v ht heq
  · rw [hpg] at ht
    exact h.table t ht
  · rw [hhas]
    exact h.mapped f sp vp hf
  · have hmarked := h.marked sp vp (hhas.mp hsp) hmapped
    refine (Space.marked_setTask_of_ne ?_).mpr hmarked
    rintro rfl
    exact (hhas.mp hsp).1 hu
  · rw [hpg] at ht
    rw [MemState.setTask_task, Function.update_of_ne (hne ht)]
    exact h.userRange t ht

/-- A page directory that maps the kernel's half and itself, and nothing in the user's half. -/
structure EmptyDir (mem : Nat → UInt8) (d : Nat) : Prop where
  low : ∀ i < 768, pde mem d i = 0
  kernel : ∀ i, 768 ≤ i → i < 1023 → pde mem d i = kernelTable i + 7
  self : pde mem d 1023 = d + 7

theorem EmptyDir.not_present {mem : Nat → UInt8} (h : EmptyDir mem d) {i : Nat} (hi : i < 768) :
    ¬ Present (pde mem d i) := by
  rw [h.low i hi]
  decide

theorem EmptyDir.target_eq_none {mem : Nat → UInt8} (h : EmptyDir mem d) {vp : Nat}
    (hvp : vp < 768 * 1024) : target mem d vp = none := by
  unfold target entry
  simp only [if_neg (h.not_present (i := vp / 1024) (by omega))]

/-- A page whose frame is no page directory does not hold the directory of a process. -/
theorem FrameInv.ne_pgdir (h : FrameInv g s) (hd : target s.phys bootDir vp = some d)
    (hdir : ¬ g.IsDir d) {t : Nat} (ht : (s.task t).pgdir ≠ 0) : 4096 * vp ≠ (s.task t).pgdir := by
  intro heq
  refine hdir (.inr ⟨t, ?_⟩)
  have htarget := (h.process t ht).2.2.2
  rw [← heq, show 4096 * vp / 4096 = vp by omega, hd] at htarget
  exact (Option.some.inj htarget).symm

theorem FrameInv.newDir (h : FrameInv g s) (hu : (s.task u).pgdir = 0) (hrun : u ≠ s.runningThread)
    (hvp : Space.kernel.Has s vp) (hd : target s.phys bootDir vp = some d) (hge : 0x200000 ≤ d)
    (hdir : ¬ g.IsDir d) (hempty : EmptyDir s.phys d) (htask : task.pgdir = 4096 * vp)
    (hrange : task.userprogVaddr.vaddrStart = 0x8048000 ∧
      task.userprogVaddr.vaddrBitmap.btmpBytesLen = 94199) :
    FrameInv (g.setDir u d) (s.setTask u task) := by
  have hnew : (s.setTask u task).task u = task := Function.update_self ..
  have hold : ∀ {t}, t ≠ u → (s.setTask u task).task t = s.task t := fun ht =>
    Function.update_of_ne ht ..
  have hdirNew : (g.setDir u d).dir u = d := Function.update_self ..
  have hdirOld : ∀ {t}, t ≠ u → (g.setDir u d).dir t = g.dir t := fun ht =>
    Function.update_of_ne ht ..
  have hnz : task.pgdir ≠ 0 := by have := hvp.1; omega
  refine ⟨h.debug, h.laidOut, h.bit, h.pool, ?_, fun t ht => ?_, fun t ht => ?_,
    fun t v ht heq => ?_, fun d' hd' => ?_, fun d' hd' i hi hi' => ?_, h.bootFirst,
    h.bootRest, fun t ht i hi hp => ?_,
    fun sp vp' f hsp hf => ?_, fun f sp vp' hf => ?_, h.low, fun sp vp' hsp hmapped => ?_,
    h.kernelRange, fun t ht => ?_⟩
  · exact h.cr3.trans (hdirOld hrun.symm).symm
  · by_cases heq : t = u
    · rw [heq, hnew] at ht
      exact absurd ht hnz
    · rw [hold heq] at ht
      exact (hdirOld heq).trans (h.thread t ht)
  · by_cases heq : t = u
    · rw [heq, hnew, htask, hdirNew]
      rw [show 4096 * vp / 4096 = vp by omega]
      exact ⟨by omega, hvp, hge, hd⟩
    · rw [hold heq] at ht ⊢
      rw [hdirOld heq]
      exact h.process t ht
  · by_cases ht' : t = u <;> by_cases hv : v = u
    · rw [ht', hv]
    · rw [ht', hnew, hold hv] at heq
      exact absurd (htask.symm.trans heq) (h.ne_pgdir hd hdir (heq ▸ hnz))
    · rw [hold ht'] at ht
      rw [hold ht', hv, hnew] at heq
      exact absurd (htask.symm.trans heq.symm) (h.ne_pgdir hd hdir ht)
    · rw [hold ht'] at ht
      rw [hold ht', hold hv] at heq
      exact h.pgdirInj t v ht heq
  · rcases Frames.isDir_setDir hd' with rfl | hd'
    · exact hempty.self
    · exact h.selfMap d' hd'
  · rcases Frames.isDir_setDir hd' with rfl | hd'
    · exact hempty.kernel i hi hi'
    · exact h.kernelPde d' hd' i hi hi'
  · by_cases heq : t = u
    · rw [heq, hdirNew] at hp
      exact absurd hp (hempty.not_present hi)
    · rw [hold heq] at ht
      rw [hdirOld heq] at hp ⊢
      exact h.table t ht i hi hp
  · by_cases heq : sp = .user u
    · subst heq
      rw [Space.dir, hdirNew] at hf
      cases (hempty.target_eq_none hsp.2).symm.trans hf
    · rw [Space.dir_setDir_of_ne heq] at hf
      exact h.page sp vp' f ((Space.has_setTask_of_ne heq).mp hsp) hf
  · obtain ⟨hsp, htarget⟩ := h.mapped f sp vp' hf
    have hne : sp ≠ .user u := by
      rintro rfl
      exact hsp.1 hu
    rw [Space.has_setTask_of_ne hne, Space.dir_setDir_of_ne hne]
    exact ⟨hsp, htarget⟩
  · by_cases heq : sp = .user u
    · subst heq
      rw [Space.dir, hdirNew] at hmapped
      exact absurd (hempty.target_eq_none hsp.2) hmapped
    · rw [Space.dir_setDir_of_ne heq] at hmapped
      rw [Space.marked_setTask_of_ne heq]
      exact h.marked sp vp' ((Space.has_setTask_of_ne heq).mp hsp) hmapped
  · by_cases heq : t = u
    · rw [heq, hnew]
      exact hrange
    · rw [hold heq] at ht ⊢
      exact h.userRange t ht

theorem FrameInv.fillDir_ok (h : FrameInv g s) (hsp : Space.kernel.Has s vp)
    (hd : target s.phys bootDir vp = some d) (hplain : g.Plain d) (hlt : d < 2 ^ 31)
    (hzero : ∀ a, d ≤ a → a < d + 4096 → s.phys a = 0) :
    ∃ mem, (do
        Mem.memcpy (4096 * vp + 0x300 * 4) (0xfffff000 + 0x300 * 4) 1024
        let newPageDirPhyAddr ← Mem.addrV2p (4096 * vp)
        Mem.storeWord (4096 * vp + 1023 * 4) (Mem.pageEntry newPageDirPhyAddr)
        pure (4096 * vp) : Mem Nat) s = .ok (4096 * vp, s.setPhys mem) ∧
      Wrote g s mem ∧ EmptyDir mem d ∧ ∀ a, a < d ∨ d + 4096 ≤ a → mem a = s.phys a := by
  have hvp := has_div_lt hsp
  have hmod := hplain.aligned
  have hcr3 := (h.dir_bounds h.cr3_isDir).1
  have hne : d ≠ s.cr3 := fun heq => hplain.notDir (heq ▸ h.cr3_isDir)
  have hentry : Mem.pageEntry d < 2 ^ 32 := by
    rw [Mem.pageEntry_eq hmod]
    omega
  generalize hcopy : copy s.phys (d + 0xc00) (s.cr3 + 0xc00) 1024 = mem₁
  have hsame₁ : ∀ a, a < d ∨ d + 4096 ≤ a → mem₁ a = s.phys a := fun a ha => by
    rw [← hcopy, copy_apply_of_not (by omega)]
  have hwrote₁ := Wrote.of_plain h hplain hsame₁
  have hmemcpy : Mem.memcpy (4096 * vp + 0x300 * 4) (0xfffff000 + 0x300 * 4) 1024 s =
      .ok ((), s.setPhys mem₁) := by
    rw [Mem.memcpy, bind_of_ok (Mem.assert_ok _ (decide_eq_true (by omega))), ← hcopy]
    refine Mem.memcpyLoop_ok (by omega) fun k hk mem hmem => ⟨?_, ?_⟩
    · have hagree : ∀ a, a < d ∨ d + 4096 ≤ a → mem a = s.phys a := fun a ha => hmem a (by omega)
      have hw := h.walk_plain (show Space.kernel.Current s from trivial) hsp hd hplain hagree
        (show 0xc00 + k < 4096 by omega)
      rwa [← Nat.add_assoc, ← Nat.add_assoc] at hw
    · have hinv : FrameInv g (s.setPhys mem) := h.write hplain fun a ha => hmem a (by omega)
      have hself := hinv.selfMapped h.cr3_isDir
      have hw := hself.walk_table (by decide) hself.present (show 0xc00 + k < 4096 by omega)
      rw [hself.frame, ← Nat.add_assoc] at hw
      rw [Nat.add_assoc s.cr3]
      exact hw
  have hd₁ := (hwrote₁.keeps .kernel vp hsp).trans hd
  have hv2p : Mem.addrV2p (4096 * vp) (s.setPhys mem₁) = .ok (d, s.setPhys mem₁) := by
    have hok := Mem.addrV2p_ok (s := s.setPhys mem₁) (hwrote₁.inv.selfMapped h.cr3_isDir)
      (v := 4096 * vp) (by omega) (f := d) (by
        rw [show 4096 * vp / 4096 = vp by omega]
        exact (hwrote₁.inv.target_current (show Space.kernel.Has _ vp from hsp) trivial).trans hd₁)
    rwa [show 4096 * vp % 4096 = 0 by omega, Nat.add_zero] at hok
  have hstore : Mem.storeWord (4096 * vp + 1023 * 4) (Mem.pageEntry d) (s.setPhys mem₁) =
      .ok ((), s.setPhys (store32 mem₁ (d + 4092) (Mem.pageEntry d))) :=
    Mem.storeWord_ok (s := s.setPhys mem₁) (hwrote₁.inv.walk_plain
      (show Space.kernel.Current _ from trivial) hsp hd₁ hplain (fun _ _ => rfl)
      (show 1023 * 4 < 4096 by decide)) _
  have hsame₂ : ∀ a, a < d ∨ d + 4096 ≤ a →
      store32 mem₁ (d + 4092) (Mem.pageEntry d) a = mem₁ a := fun a ha =>
    store32_apply_of_not (by omega)
  refine ⟨store32 mem₁ (d + 4092) (Mem.pageEntry d), ?_,
    hwrote₁.trans (.of_plain hwrote₁.inv hplain hsame₂), ⟨fun i hi => ?_, fun i hi hi' => ?_, ?_⟩,
    fun a ha => (hsame₂ a ha).trans (hsame₁ a ha)⟩
  · rw [bind_of_ok hmemcpy, bind_of_ok hv2p, bind_of_ok hstore]
    rfl
  · have hpde : pde (store32 mem₁ (d + 4092) (Mem.pageEntry d)) d i = load32 s.phys (d + 4 * i) :=
      load32_congr fun b hb hb' => by
        rw [store32_apply_of_not (by omega), ← hcopy, copy_apply_of_not (by omega)]
    have hload : load32 s.phys (d + 4 * i) = 0 := by
      rw [← @load32_fill_zero s.phys d (d + 4 * i) 4096 (by omega)]
      exact load32_congr fun b hb hb' => by
        rw [hzero b (by omega) (by omega), fill_apply_of_mem (by omega)]
    rw [hpde, hload]
  · have hpde : pde (store32 mem₁ (d + 4092) (Mem.pageEntry d)) d i = load32 mem₁ (d + 4 * i) :=
      load32_store32_of_disjoint (by omega)
    rw [hpde, ← hcopy, load32_copy (by omega),
      show s.cr3 + 0xc00 + (d + 4 * i - (d + 0xc00)) = s.cr3 + 4 * i by omega]
    exact h.kernelPde s.cr3 h.cr3_isDir i hi hi'
  · rw [← Mem.pageEntry_eq hmod]
    exact load32_store32_self hentry

end NewDir

section Directories

variable {g : Frames} {s : MemState} {E : Stop → Prop}

theorem FrameInv.ensures_getKernelPages (h : FrameInv g s) (hE : Tolerates E) (n : Nat) :
    Ensures (Mem.getKernelPages n) E
      (fun v t => (v = 0 ∧ t = s) ∨ v ≠ 0 ∧ Provided .kernel n v g s t) s :=
  h.ensures_zeroPages hE (fun heq => PoolFlags.noConfusion heq) n

/-- `create_page_dir` after `get_kernel_pages` makes a page directory of the new page. -/
theorem Grew.fillDir_ok {g' : Frames} {t : MemState} {i : Nat} (h : FrameInv g s)
    (hgrew : Grew .kernel .kernel (0xc0100 + i) 1 g g'
      (s.setVaddrBitmap .kernel (s.kernelVaddr.vaddrBitmap.putRun true 1 i)) t)
    (hzero : Zeroed .kernel (0xc0100 + i) 1 g' t) (hsp : Space.kernel.Has s (0xc0100 + i)) :
    ∃ mem d, (do
        Mem.memcpy (4096 * (0xc0100 + i) + 0x300 * 4) (0xfffff000 + 0x300 * 4) 1024
        let newPageDirPhyAddr ← Mem.addrV2p (4096 * (0xc0100 + i))
        Mem.storeWord (4096 * (0xc0100 + i) + 1023 * 4) (Mem.pageEntry newPageDirPhyAddr)
        pure (4096 * (0xc0100 + i)) : Mem Nat) t = .ok (4096 * (0xc0100 + i), t.setPhys mem) ∧
      Grew .kernel .kernel (0xc0100 + i) 1 g g'
        (s.setVaddrBitmap .kernel (s.kernelVaddr.vaddrBitmap.putRun true 1 i)) (t.setPhys mem) ∧
      target mem bootDir (0xc0100 + i) = some d ∧ 0x200000 ≤ d ∧ ¬ g.IsDir d ∧
      EmptyDir mem d := by
  obtain ⟨j, hj, hd, hnone⟩ := hgrew.mapped 0 Nat.one_pos
  have hb := frameAddr_bounds .kernel hj
  have hdir := Grew.not_isDir (h.setRun .kernel 1 i) hb.1 hnone
  have hd' : target t.phys (Space.kernel.dir g') (0xc0100 + i) = some (frameAddr .kernel j) := hd
  have hspt : Space.kernel.Has t (0xc0100 + i) := hsp
  have hown := (hgrew.inv.page .kernel _ _ hspt hd').resolve_left (by omega)
  have hplain := hgrew.inv.plain_of_page hown fun hd => hdir (hgrew.isDir.mp hd)
  obtain ⟨mem, hok, hwrote, hempty, hsame⟩ := hgrew.inv.fillDir_ok hspt hd' hplain (by omega)
    (hzero _ 0 Nat.one_pos hown)
  refine ⟨mem, frameAddr .kernel j, hok, ?_, ?_, hb.1, hdir, hempty⟩
  · refine hgrew.write (fun k hk => ?_) hwrote fun a ha => hsame a (ha _ 0 Nat.one_pos hown)
    rw [show k = 0 by omega]
    exact hsp
  · exact (hwrote.keeps .kernel _ hspt).trans hd'

/-- `create_page_dir` returns a page of the kernel's range whose frame is a page directory. -/
theorem FrameInv.ensures_createPageDir (h : FrameInv g s) (hE : Tolerates E) :
    Ensures Mem.createPageDir E (fun v t => (v = 0 ∧ t = s) ∨
      ∃ i g' d, v = 4096 * (0xc0100 + i) ∧ Space.kernel.Has s (0xc0100 + i) ∧
        Grew .kernel .kernel (0xc0100 + i) 1 g g'
          (s.setVaddrBitmap .kernel (s.kernelVaddr.vaddrBitmap.putRun true 1 i)) t ∧
        target t.phys bootDir (0xc0100 + i) = some d ∧ 0x200000 ≤ d ∧ ¬ g.IsDir d ∧
        EmptyDir t.phys d) s := by
  unfold Mem.createPageDir
  refine (h.ensures_getKernelPages hE 1).bind ?_
  rintro v t (⟨rfl, rfl⟩ | ⟨hne, i, g', -, -, -, rfl, hhas, hgrew, hzero⟩)
  · rw [if_pos rfl]
    exact ensures_pure (.inl ⟨rfl, rfl⟩)
  · rw [if_neg hne]
    have hsp : Space.kernel.Has s (0xc0100 + i) := hhas 0 Nat.one_pos
    obtain ⟨mem, d, hok, hrest⟩ := hgrew.fillDir_ok h hzero hsp
    exact ensures_of_ok hok (.inr ⟨i, g', d, rfl, hsp, hrest⟩)

end Directories

end OriginOS
