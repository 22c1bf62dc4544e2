import OriginOS.Kernel.AddressSpaces

/-! The translation lookaside buffer during runs of the page operations. `page_table_pte_remove`
gives `invlpg` its parameter as the memory operand, so the entry that is dropped is that of the page
of the kernel stack that the parameter is on, and not that of the page that has been freed. -/

namespace OriginOS

open Lib

/-- The page operations with the buffer: the frame that is cached for a page. -/
structure TlbWorld where
  world : PageWorld
  tlb : Nat → Option Nat

/-- A call, with the address of the parameter of `page_table_pte_remove`, or an access to a page,
which may put its translation into the buffer. -/
inductive TlbAct where
  | call (a : PageAct) (operand : Nat)
  | access (vp : Nat)
deriving DecidableEq, Repr

/-- The buffer after a call: `mfree_page` executes `invlpg`, and a switch loads `cr3`. -/
def PageAct.flush (operand : Nat) (tlb : Nat → Option Nat) : PageAct → Nat → Option Nat
  | .mfreePage _ => Function.update tlb (operand / 4096) none
  | .switchTo _ => fun _ => none
  | _ => tlb

def tlbExec (a : TlbAct) (w : TlbWorld) : Except Stop TlbWorld :=
  match a with
  | .call a operand => do
    let world ← pageExec a w.world
    pure ⟨world, a.flush operand w.tlb⟩
  | .access vp =>
    pure ⟨w.world, Function.update w.tlb vp (target w.world.mem.phys w.world.mem.cr3 vp)⟩

/-- The runs of the page operations, with accesses to pages that are mapped. -/
def tlbSystem : System TlbWorld TlbAct Stop where
  init w := pageSystem.init w.world ∧ w.tlb = fun _ => none
  guard w a :=
    match a with
    | .call a _ => pageGuard w.world a
    | .access vp => target w.world.mem.phys w.world.mem.cr3 vp ≠ none
  exec := tlbExec

/-- What the buffer holds for a page below the page table window is the translation of the page. -/
def TlbCoherent (w : TlbWorld) : Prop :=
  ∀ vp < 0xffc00, ∀ f, w.tlb vp = some f → target w.world.mem.phys w.world.mem.cr3 vp = some f

/-- The condition on a call: the addresses given to `get_a_page` are in the range, and no page whose
entry `mfree_page` clears is in the buffer, except for the page of the operand. -/
def TlbAct.NotCached (w : TlbWorld) : TlbAct → Prop
  | .call a operand => a.AddressInRange w.world ∧ ∀ r, a = .mfreePage r →
    ∀ vp < 0xffc00, w.tlb vp ≠ none → vp ≠ operand / 4096 → ∀ k < r.n,
      entry w.world.mem.phys w.world.mem.cr3 vp ≠
        entry w.world.mem.phys w.world.mem.cr3 (r.vp + k)
  | .access _ => True

/-! ### The pages of the running thread -/

/-- The page that `vp` is in the running thread. Without a process, the first 4 MiB are those from
0xc0000000 on. -/
def MemState.pageOf (s : MemState) (vp : Nat) : Option (Space × Nat) :=
  if 768 * 1024 ≤ vp then some (.kernel, vp)
  else if (s.task s.runningThread).pgdir ≠ 0 then some (.user s.runningThread, vp)
  else if vp < 1024 then some (.kernel, 768 * 1024 + vp)
  else none

section View

variable {g g' : Frames} {s t : MemState} {sp : Space} {vp vp' : Nat}

/-- Without a process, there is one page table in the lower half, the kernel's first. -/
theorem FrameInv.entry_low (h : FrameInv g s) (hlow : vp < 768 * 1024) :
    entry s.phys bootDir vp =
      if vp < 1024 then entry s.phys bootDir (768 * 1024 + vp) else none := by
  split
  · next hvp =>
    have hkernel := h.entry_kernel (.inl rfl)
      (show Space.kernel.Has s (768 * 1024 + vp) from ⟨by omega, by omega⟩)
    rw [show (768 * 1024 + vp) / 1024 = 768 by omega,
      show (768 * 1024 + vp) % 1024 = vp by omega] at hkernel
    rw [hkernel]
    refine entry_eq_some.mpr ?_
    rw [show vp / 1024 = 0 by omega, h.bootFirst, show vp % 1024 = vp by omega]
    exact ⟨rfl, rfl⟩
  · next hvp => exact if_neg (h.bootRest _ (by omega) (by omega))

theorem FrameInv.entry_pageOf (h : FrameInv g s) (hvp : vp < 1023 * 1024) :
    match s.pageOf vp with
    | some (sp, vp') => sp.Has s vp' ∧ sp.Current s ∧
      entry s.phys s.cr3 vp = entry s.phys (sp.dir g) vp'
    | none => entry s.phys s.cr3 vp = none := by
  unfold MemState.pageOf
  by_cases hge : 768 * 1024 ≤ vp
  · rw [if_pos hge]
    have hsp : Space.kernel.Has s vp := ⟨hge, hvp⟩
    exact ⟨hsp, trivial, h.entry_current hsp trivial⟩
  · rw [if_neg hge]
    by_cases hproc : (s.task s.runningThread).pgdir = 0
    · rw [if_neg (not_not.mpr hproc), h.cr3, h.thread _ hproc, h.entry_low (by omega)]
      by_cases hlt : vp < 1024
      · rw [if_pos hlt, if_pos hlt]
        exact ⟨⟨by omega, by omega⟩, trivial, rfl⟩
      · rw [if_neg hlt, if_neg hlt]
    · rw [if_pos hproc]
      have hsp : (Space.user s.runningThread).Has s vp := ⟨hproc, by omega⟩
      exact ⟨hsp, rfl, h.entry_current hsp rfl⟩

theorem FrameInv.pageOf_of_target (h : FrameInv g s) (hvp : vp < 1023 * 1024) {f : Nat}
    (hf : target s.phys s.cr3 vp = some f) :
    ∃ sp vp', s.pageOf vp = some (sp, vp') ∧ sp.Has s vp' ∧ sp.Current s ∧
      entry s.phys s.cr3 vp = entry s.phys (sp.dir g) vp' ∧
      target s.phys (sp.dir g) vp' = some f := by
  have hcases := h.entry_pageOf hvp
  cases hpage : s.pageOf vp with
  | none =>
    rw [hpage] at hcases
    unfold target at hf
    rw [hcases] at hf
    exact nomatch hf
  | some p =>
    rw [hpage] at hcases
    obtain ⟨hsp, hcur, hentry⟩ := hcases
    exact ⟨p.1, p.2, rfl, hsp, hcur, hentry, (target_eq_of_entry hentry).symm.trans hf⟩

theorem FrameInv.target_of_keeps (h : FrameInv g s) (h' : FrameInv g' t) (hdir : g'.dir = g.dir)
    (hpage : t.pageOf vp = s.pageOf vp) (hvp : vp < 1023 * 1024) {f : Nat}
    (hf : target s.phys s.cr3 vp = some f)
    (hkeep : ∀ (sp : Space) vp', sp.Has s vp' → sp.Current s →
      entry s.phys s.cr3 vp = entry s.phys (sp.dir g) vp' → target s.phys (sp.dir g) vp' = some f →
      target t.phys (sp.dir g) vp' = some f) :
    target t.phys t.cr3 vp = some f := by
  obtain ⟨sp, vp', hview, hsp, hcur, hentry, hold⟩ := h.pageOf_of_target hvp hf
  have hnew := h'.entry_pageOf hvp
  rw [hpage, hview] at hnew
  rw [target_eq_of_entry hnew.2.2, Space.dir_congr hdir]
  exact hkeep sp vp' hsp hcur hentry hold

theorem Grew.target_cr3 {pf pf' : PoolFlags} {n : Nat} {b : Bitmap} (h : FrameInv g s)
    (hgrew : Grew pf sp vp n g g' (s.setVaddrBitmap pf' b) t) {q f : Nat} (hq : q < 1023 * 1024)
    (hf : target s.phys s.cr3 q = some f) : target t.phys t.cr3 q = some f := by
  have hphys : (s.setVaddrBitmap pf' b).phys = s.phys := by cases pf' <;> rfl
  have hpage : t.pageOf q = s.pageOf q := by
    obtain ⟨pool, mem, rfl⟩ := hgrew.state
    have hrun : (s.setVaddrBitmap pf' b).runningThread = s.runningThread := by cases pf' <;> rfl
    have hpg := pgdir_setVaddrBitmap s pf' b s.runningThread
    simp only [MemState.pageOf, MemState.setPhys_task, MemState.setPool_task,
      MemState.setPhys_runningThread, MemState.setPool_runningThread, hrun, hpg]
  refine h.target_of_keeps hgrew.inv hgrew.dir hpage hq hf fun sp' vp' hsp hcur hentry hold => ?_
  rw [hgrew.keeps sp' vp' (has_setVaddrBitmap.mpr hsp) ?_, hphys]
  · exact hold
  · -- the new pages were not mapped
    rintro ⟨rfl, hlo, hhi⟩
    have hwas := hgrew.was (vp' - vp) (by omega)
    rw [show vp + (vp' - vp) = vp' by omega, hphys, hold] at hwas
    exact nomatch hwas

end View

/-! ### What a call keeps mapped -/

section Step

variable {g : Frames} {w t : PageWorld} {q f : Nat}

theorem FrameInv.mfreePage_keeps (h : FrameInv g w.mem) {r : PageRange} (hr : RangeOk g w.mem r)
    (howner : r.pf = .user → r.owner = w.mem.runningThread)
    (ht : pageExec (.mfreePage r) w = .ok t) (hq : q < 1023 * 1024)
    (hf : target w.mem.phys w.mem.cr3 q = some f)
    (hnot : ∀ k < r.n, entry w.mem.phys w.mem.cr3 q ≠ entry w.mem.phys w.mem.cr3 (r.vp + k)) :
    target t.mem.phys t.mem.cr3 q = some f := by
  obtain ⟨⟨v, mem⟩, hx, ht⟩ := exists_of_bind_eq_ok ht
  obtain rfl := Except.ok.inj ht
  obtain ⟨g', s', b, hspace, hshrank, hok, -⟩ := hr.mfreePage_ok h howner
  obtain rfl := (Prod.mk.inj (Except.ok.inj (hok.symm.trans hx))).2
  have hpage : s'.pageOf q = w.mem.pageOf q := by
    obtain ⟨pool, mem, rfl⟩ := hshrank.state
    rfl
  have hkeep : target s'.phys s'.cr3 q = some f := by
    refine h.target_of_keeps hshrank.inv hshrank.dir hpage hq hf
      fun sp vp hsp hcur hentry hold => ?_
    rw [hshrank.keeps sp vp hsp ?_]
    · exact hold
    · rintro ⟨rfl, hlo, hhi⟩
      refine hnot (vp - r.vp) (by omega) ?_
      rw [show r.vp + (vp - r.vp) = vp by omega, h.entry_current hsp hcur]
      exact hentry
  cases hpf : r.pf <;> exact hkeep

/-- What is mapped stays mapped, as long as the call is neither a switch nor frees it. -/
theorem PageInv.keeps {a : PageAct} (h : PageInv w) (ha : a.AddressInRange w)
    (hstep : pageSystem.Step w a t) (hq : q < 1023 * 1024)
    (hf : target w.mem.phys w.mem.cr3 q = some f) (hswitch : ∀ u, a ≠ .switchTo u)
    (hnot : ∀ r, a = .mfreePage r → ∀ k < r.n,
      entry w.mem.phys w.mem.cr3 q ≠ entry w.mem.phys w.mem.cr3 (r.vp + k)) :
    target t.mem.phys t.mem.cr3 q = some f := by
  obtain ⟨g, hinv, hranges, hapart⟩ := h
  obtain ⟨hguard, ht⟩ := hstep
  cases a with
  | mallocPage pf n =>
    obtain ⟨⟨v, mem⟩, hx, ht⟩ := exists_of_bind_eq_ok ht
    obtain rfl := Except.ok.inj ht
    rcases (hinv.ensures_mallocPage (E := fun _ => True) (fun _ _ => trivial) hguard n).ok hx with
      ⟨-, rfl⟩ | ⟨i, g', -, -, -, -, -, hgrew⟩
    · exact hf
    · exact hgrew.target_cr3 hinv hq hf
  | mfreePage r =>
    exact hinv.mfreePage_keeps (hranges r hguard.1) hguard.2 ht hq hf (hnot r rfl)
  | getAPage pf v =>
    obtain ⟨⟨v', mem⟩, hx, ht⟩ := exists_of_bind_eq_ok ht
    obtain rfl := Except.ok.inj ht
    obtain ⟨g', l, l', u, -, hgrew, rfl⟩ := (hinv.returns_getAPage ha).ok hx
    exact hgrew.target_cr3 (hinv.setLock pf l) hq hf
  | createUserVaddrBitmap u =>
    obtain ⟨⟨v, mem⟩, hx, ht⟩ := exists_of_bind_eq_ok ht
    obtain rfl := Except.ok.inj ht
    obtain ⟨i, n, g', b, s', task, hgrew, -, -, rfl⟩ :=
      (hinv.returns_createUserVaddrBitmap hguard.2).ok hx
    exact hgrew.target_cr3 hinv hq hf
  | createPageDir u =>
    obtain ⟨⟨v, mem⟩, hx, ht⟩ := exists_of_bind_eq_ok ht
    obtain rfl := Except.ok.inj ht
    rcases (hinv.ensures_createPageDir (E := fun _ => True) (fun _ _ => trivial)).ok hx with
      ⟨-, rfl⟩ | ⟨i, g', d, -, -, hgrew, -⟩
    · exact hf
    · exact hgrew.target_cr3 hinv hq hf
  | switchTo u => exact absurd rfl (hswitch u)

end Step

/-! ### Runs -/

/-- The invariant of the pages, and a buffer that agrees with them. -/
def TlbInv (w : TlbWorld) : Prop := PageInv w.world ∧ TlbCoherent w

theorem TlbInv.step {w t : TlbWorld} {a : TlbAct} (h : TlbInv w) (ha : a.NotCached w)
    (hstep : tlbSystem.Step w a t) : TlbInv t := by
  obtain ⟨hinv, hcoh⟩ := h
  obtain ⟨hguard, ht⟩ := hstep
  cases a with
  | access vp =>
    obtain rfl := Except.ok.inj ht
    refine ⟨hinv, fun q hq f hf => ?_⟩
    change Function.update w.tlb vp (target w.world.mem.phys w.world.mem.cr3 vp) q = some f at hf
    rw [Function.update_apply] at hf
    split at hf
    · next heq => rw [heq]; exact hf
    · exact hcoh q hq f hf
  | call a operand =>
    obtain ⟨world, hx, ht⟩ := exists_of_bind_eq_ok ht
    obtain rfl := Except.ok.inj ht
    have hstep : pageSystem.Step w.world a world := ⟨hguard, hx⟩
    refine ⟨hinv.step ha.1 hstep, fun q hq f hf => ?_⟩
    have hkeep := fun hold : w.tlb q = some f =>
      hinv.keeps ha.1 hstep (show q < 1023 * 1024 by omega)
      (hcoh q hq f hold)
    change a.flush operand w.tlb q = some f at hf
    cases a with
    | switchTo u => exact nomatch hf
    | mfreePage r =>
      by_cases heq : q = operand / 4096
      · rw [heq, PageAct.flush, Function.update_self] at hf
        exact nomatch hf
      · rw [PageAct.flush, Function.update_of_ne heq] at hf
        refine hkeep hf (fun u hu => nomatch hu) fun r' hr' k hk => ?_
        obtain rfl := PageAct.mfreePage.inj hr'
        exact ha.2 r rfl q hq (by rw [hf]; exact Option.some_ne_none _) heq k hk
    | mallocPage | getAPage | createUserVaddrBitmap | createPageDir =>
      exact hkeep hf (fun u hu => nomatch hu) fun r hr => nomatch hr

theorem TlbInv.init {w : TlbWorld} (h : tlbSystem.init w) : TlbInv w := by
  refine ⟨PageInv.init h.1, fun vp hvp f hf => ?_⟩
  rw [h.2] at hf
  exact nomatch hf

theorem step_call {w : TlbWorld} {a : PageAct} {t : PageWorld} (hstep : pageSystem.Step w.world a t)
    (operand : Nat) : tlbSystem.Step w (.call a operand) ⟨t, a.flush operand w.tlb⟩ := by
  have hpage : pageExec a w.world = .ok t := hstep.2
  have hexec : tlbExec (.call a operand) w = .ok ⟨t, a.flush operand w.tlb⟩ := by
    rw [tlbExec, hpage]
    rfl
  exact ⟨hstep.1, hexec⟩

theorem PageInv.target_live {w : PageWorld} (h : PageInv w) {r : PageRange} (hr : r ∈ w.live)
    (hpf : r.pf = .kernel) : target w.mem.phys w.mem.cr3 r.vp ≠ none := by
  obtain ⟨g, hinv, hranges, -⟩ := h
  obtain ⟨hpos, -, halloc⟩ := hranges r hr
  obtain ⟨hsp, i, -, hf, -⟩ := halloc 0 hpos
  have hspace : r.space = .kernel := by
    unfold PageRange.space
    rw [hpf]
  rw [hspace] at hsp hf
  have hcur := (hinv.target_current hsp trivial).trans hf
  rw [Nat.add_zero] at hcur
  rw [hcur]
  exact Option.some_ne_none _

theorem PageInv.exists_mfreePage {w : PageWorld} (h : PageInv w) {r : PageRange} (hr : r ∈ w.live)
    (hpf : r.pf = .kernel) :
    ∃ t, pageSystem.Step w (.mfreePage r) t ∧ target t.mem.phys t.mem.cr3 r.vp = none := by
  obtain ⟨g, hinv, hranges, -⟩ := h
  have howner : r.pf = .user → r.owner = w.mem.runningThread := by
    rw [hpf]
    exact fun heq => PoolFlags.noConfusion heq
  obtain ⟨g', s', b, hspace, hshrank, hok, hinv'⟩ := (hranges r hr).mfreePage_ok hinv howner
  have hexec : pageExec (.mfreePage r) w =
      .ok ⟨s'.setVaddrBitmap r.pf b, w.live.filter (· ≠ r)⟩ := by
    rw [pageExec, hok]
    rfl
  refine ⟨_, ⟨⟨hr, howner⟩, hexec⟩, ?_⟩
  have hgone := hshrank.gone 0 (hranges r hr).pos
  obtain ⟨hsp, -⟩ := (hranges r hr).allocated 0 (hranges r hr).pos
  rw [Nat.add_zero] at hgone hsp
  rw [hspace, hpf] at hgone hsp
  rw [hpf] at hinv' ⊢
  exact (hinv'.target_current (show Space.kernel.Has _ r.vp from hsp) trivial).trans hgone

theorem exists_cachedPage : ∃ tr w, tlbSystem.Run tr w ∧ (∀ p ∈ tr, p.2.NotCached p.1) ∧
    w.world.live = [⟨.kernel, 0, 0xc0100, 1⟩] ∧ w.tlb 0xc0100 ≠ none := by
  obtain ⟨g, s, hok, -⟩ := bootWorld_inOrder.mallocPage_ok (n := 1) (by omega) (by omega)
  have step := step_mallocPage (fun heq => PoolFlags.noConfusion heq) hok
  rw [if_neg (by omega), show 4096 * (0xc0100 + 0) / 4096 = 0xc0100 by omega] at step
  generalize hw : (⟨s, ⟨.kernel, bootWorld.mem.runningThread, 0xc0100, 1⟩ :: bootWorld.live⟩ :
    PageWorld) = world at step
  have hlive : world.live = [⟨.kernel, 0, 0xc0100, 1⟩] := by
    rw [← hw]
    rfl
  have hinv : PageInv world :=
    (PageInv.init bootWorld_init).step (a := .mallocPage .kernel 1) trivial step
  have hmapped : target world.mem.phys world.mem.cr3 0xc0100 ≠ none :=
    hinv.target_live (r := ⟨.kernel, 0, 0xc0100, 1⟩) (by rw [hlive]; exact List.mem_cons_self) rfl
  have step₁ := step_call (w := ⟨bootWorld, fun _ => none⟩) step 0
  have step₂ : tlbSystem.Step ⟨world, fun _ => none⟩ (.access 0xc0100) ⟨world, Function.update
      (fun _ => none) 0xc0100 (target world.mem.phys world.mem.cr3 0xc0100)⟩ := ⟨hmapped, rfl⟩
  have hinit : tlbSystem.init ⟨bootWorld, fun _ => none⟩ := ⟨bootWorld_init, rfl⟩
  have run := ((System.Run.start hinit).next step₁).next step₂
  refine ⟨_, _, run, fun p hp => ?_, hlive, ?_⟩
  · simp only [List.mem_cons, List.not_mem_nil, or_false] at hp
    rcases hp with rfl | rfl
    · trivial
    · exact ⟨trivial, fun r hr => nomatch hr⟩
  · show Function.update (fun _ => none) 0xc0100 (target world.mem.phys world.mem.cr3 0xc0100)
      0xc0100 ≠ none
    rw [Function.update_self]
    exact hmapped

/-- The buffer agrees with the page tables in every state of a run in which `mfree_page` frees only
pages that are not in the buffer. -/
theorem tlb_coherent {tr : List (TlbWorld × TlbAct)} {w : TlbWorld} (run : tlbSystem.Run tr w)
    (hcond : ∀ p ∈ tr, p.2.NotCached p.1) : ∀ u ∈ System.states tr w, TlbCoherent u := by
  intro u hu
  obtain ⟨tr', run', hsub⟩ := run.of_mem_states hu
  exact (run'.invariant_of (C := fun w a => a.NotCached w) (fun _ => TlbInv.init)
    (fun _ _ _ hi ha hs => hi.step ha hs) fun p hp => hcond p (hsub p hp)).2

/-- The page is accessed, `cr3` is loaded again, and the page is freed. -/
theorem tlb_coherent_reload : ∃ tr w, tlbSystem.Run tr w ∧
    (∃ p ∈ tr, p.2 = .call (.mfreePage ⟨.kernel, 0, 0xc0100, 1⟩) 0xc009efe0) ∧
    ∀ u ∈ System.states tr w, TlbCoherent u := by
  obtain ⟨tr, w, run, hcond, hlive, -⟩ := exists_cachedPage
  have hinv : TlbInv w := run.invariant_of (C := fun w a => a.NotCached w) (fun _ => TlbInv.init)
    (fun _ _ _ hi ha hs => hi.step ha hs) hcond
  obtain ⟨g, h, -⟩ := hinv.1
  have step₁ := step_call (step_switchTo h 0) 0
  have hinv₁ := hinv.step (a := .call (.switchTo 0) 0) ⟨trivial, fun r hr => nomatch hr⟩ step₁
  obtain ⟨t, step, -⟩ := hinv₁.1.exists_mfreePage (r := ⟨.kernel, 0, 0xc0100, 1⟩)
    (by rw [hlive]; exact List.mem_cons_self) rfl
  have step₂ := step_call step 0xc009efe0
  refine ⟨_, _, (run.next step₁).next step₂, ⟨_, List.mem_cons_self, rfl⟩,
    tlb_coherent ((run.next step₁).next step₂) ?_⟩
  simp only [List.mem_cons]
  rintro p (rfl | rfl | hp)
  · exact ⟨trivial, fun r hr vp hvp hcached => absurd rfl hcached⟩
  · exact ⟨trivial, fun r hr => nomatch hr⟩
  · exact hcond p hp

/-- The page is accessed and freed, while the parameter of `page_table_pte_remove` is on the stack
of the main thread: the buffer keeps the page. -/
theorem tlb_coherent_fails : ∃ w, tlbSystem.Reachable w ∧ ¬ TlbCoherent w := by
  obtain ⟨tr, w, run, hcond, hlive, hcached⟩ := exists_cachedPage
  have hinv : TlbInv w := run.invariant_of (C := fun w a => a.NotCached w) (fun _ => TlbInv.init)
    (fun _ _ _ hi ha hs => hi.step ha hs) hcond
  obtain ⟨t, step, hgone⟩ := hinv.1.exists_mfreePage (r := ⟨.kernel, 0, 0xc0100, 1⟩)
    (by rw [hlive]; exact List.mem_cons_self) rfl
  refine ⟨_, ⟨_, run.next (step_call step 0xc009efe0)⟩, fun hcoh => ?_⟩
  obtain ⟨f, hf⟩ := Option.ne_none_iff_exists'.mp hcached
  have hkept : Function.update w.tlb (0xc009efe0 / 4096) none 0xc0100 = some f := by
    rw [Function.update_of_ne (by omega)]
    exact hf
  have hstale := hcoh 0xc0100 (by omega) f hkept
  rw [hgone] at hstale
  exact nomatch hstale

end OriginOS
