import OriginOS.Userprog.Process

/-! Whether the registers that `process_activate` loads stay those of the running thread. -/

namespace OriginOS

open Lib

/-! ### What the scheduler leaves alone -/

section Scheduling

variable {s s' : Sched}

theorem threadUnblock_runningThread {t : Nat} (h : threadUnblock t s = .ok s') :
    s'.runningThread = s.runningThread := by
  obtain ⟨-, -, h⟩ := bind_eq_ok.mp h
  dsimp only at h
  split at h
  · obtain ⟨-, -, h⟩ := bind_eq_ok.mp h
    split at h
    · exact nomatch h
    · obtain rfl := Except.ok.inj h
      rfl
  · obtain rfl := Except.ok.inj h
    rfl

theorem initThread_runningThread {t prio : Nat} (h : initThread t prio s = .ok s') :
    s'.runningThread = s.runningThread := by
  obtain ⟨-, -, h⟩ := bind_eq_ok.mp h
  obtain rfl := Except.ok.inj h
  rfl

theorem threadStart_runningThread {t prio : Nat} (h : threadStart t prio s = .ok s') :
    s'.runningThread = s.runningThread := by
  obtain ⟨u, hu, h⟩ := bind_eq_ok.mp h
  obtain ⟨-, -, h⟩ := bind_eq_ok.mp h
  obtain ⟨-, -, h⟩ := bind_eq_ok.mp h
  obtain rfl := Except.ok.inj h
  show u.runningThread = s.runningThread
  exact initThread_runningThread hu

theorem processExecute_runningThread {t : Nat} (h : processExecute t s = .ok s') :
    s'.runningThread = s.runningThread := by
  obtain ⟨u, hu, h⟩ := bind_eq_ok.mp h
  obtain ⟨-, -, h⟩ := bind_eq_ok.mp h
  obtain ⟨-, -, h⟩ := bind_eq_ok.mp h
  obtain rfl := Except.ok.inj h
  show u.runningThread = s.runningThread
  exact initThread_runningThread hu

theorem intrTimerHandler_runningThread (h : intrTimerHandler s = .ok s')
    (hticks : (s.task s.runningThread).ticks ≠ 0) : s'.runningThread = s.runningThread := by
  obtain ⟨-, -, h⟩ := bind_eq_ok.mp h
  dsimp only at h
  split at h
  · next hzero => exact absurd hzero hticks
  · obtain rfl := Except.ok.inj h
    rfl

theorem semaUp_runningThread {sema sema' : Semaphore} (h : semaUp sema s = .ok (sema', s')) :
    s'.runningThread = s.runningThread := by
  obtain ⟨-, -, h⟩ := bind_eq_ok.mp h
  obtain ⟨⟨x, u⟩, hu, h⟩ := bind_eq_ok.mp h
  obtain ⟨-, -, h⟩ := bind_eq_ok.mp h
  obtain ⟨-, rfl⟩ := Prod.mk.inj (Except.ok.inj h)
  unfold semaUpWake at hu
  split at hu
  · obtain ⟨-, rfl⟩ := Prod.mk.inj (Except.ok.inj hu)
    rfl
  · obtain ⟨v, hv, hu⟩ := bind_eq_ok.mp hu
    obtain ⟨-, rfl⟩ := Prod.mk.inj (Except.ok.inj hu)
    exact (threadUnblock_runningThread hv).trans rfl

end Scheduling

/-! ### What `thread/sync.c` leaves alone -/

structure Steady {ι κ δ : Type} (m m' : Machine ι κ δ) : Prop where
  data : m'.data = m.data
  client : ∀ t, (m'.pc t).client = (m.pc t).client

namespace Steady

variable {ι κ δ : Type} {m m' m'' : Machine ι κ δ}

theorem trans (h : Steady m m') (h' : Steady m' m'') : Steady m m'' :=
  ⟨h'.data.trans h.data, fun t => (h'.client t).trans (h.client t)⟩

theorem goto {p : Pc ι κ} (hdata : m'.data = m.data)
    (hpc : m'.pc = Function.update m.pc m.sched.runningThread p)
    (hp : p.client = (m.pc m.sched.runningThread).client) : Steady m m' := by
  refine ⟨hdata, fun t => ?_⟩
  rw [hpc, Function.update_apply]
  split
  · next ht => rw [hp, ht]
  · rfl

end Steady

section SyncSteps

variable {ι κ δ : Type} [DecidableEq ι] {m m' : Machine ι κ δ} {k : κ}

/-- A test of the loop in `sema_down` switches to another thread only when the value is 0. -/
theorem steady_downPass {r : SemaRef ι} {old : IntrStatus}
    (hk : (m.pc m.sched.runningThread).client = k) (h : m.downPass r old k = .ok m') :
    Steady m m' ∧ ((m.sema r).value ≠ 0 → m'.sched.runningThread = m.sched.runningThread) := by
  unfold Machine.downPass at h
  split at h
  · next hzero =>
    obtain ⟨⟨sema, sched⟩, -, h⟩ := bind_eq_ok.mp h
    obtain rfl := Except.ok.inj h
    exact ⟨.goto rfl rfl hk.symm, fun hne => absurd hzero hne⟩
  · obtain ⟨sema, -, h⟩ := bind_eq_ok.mp h
    obtain rfl := Except.ok.inj h
    exact ⟨.goto rfl rfl ((Pc.client_afterDown r k).trans hk.symm), fun _ => rfl⟩

theorem steady_semaDown {r : SemaRef ι} (hk : (m.pc m.sched.runningThread).client = k)
    (h : m.semaDown r k = .ok m') :
    Steady m m' ∧ ((m.sema r).value ≠ 0 → m'.sched.runningThread = m.sched.runningThread) := by
  obtain ⟨hsteady, hrun⟩ := steady_downPass (m := { m with sched := intrDisable m.sched }) hk h
  exact ⟨⟨hsteady.data, hsteady.client⟩, hrun⟩

theorem steady_up {r : SemaRef ι} (h : m.up r = .ok m') :
    Steady m m' ∧ m'.sched.runningThread = m.sched.runningThread := by
  obtain ⟨⟨sema, sched⟩, hup, h⟩ := bind_eq_ok.mp h
  obtain rfl := Except.ok.inj h
  exact ⟨⟨rfl, fun _ => rfl⟩, semaUp_runningThread hup⟩

theorem steady_lockStep {i : ι} {p : LockPc} (hk : (m.pc m.sched.runningThread).client = k)
    (h : m.lockStep i k p = .ok m') : Steady m m' ∧
      (p ≠ .acqDown ∨ (m.sema (.ofLock i)).value ≠ 0 →
        m'.sched.runningThread = m.sched.runningThread) := by
  cases p with
  | acqDown =>
    obtain ⟨hsteady, hrun⟩ := steady_semaDown hk h
    exact ⟨hsteady, fun hor => hrun (hor.resolve_left fun hne => hne rfl)⟩
  | relUp =>
    obtain ⟨hsteady, hrun⟩ := steady_up h
    have hgoto : Steady m ((m.setDepth i (m.depth m.sched.runningThread i - 1)).goto (.run k)) :=
      .goto rfl rfl hk.symm
    exact ⟨hgoto.trans hsteady, fun _ => hrun⟩
  | acqTest =>
    simp only [Machine.lockStep] at h
    split at h
    · obtain rfl := Except.ok.inj h
      exact ⟨.goto rfl rfl hk.symm, fun _ => rfl⟩
    · obtain rfl := Except.ok.inj h
      exact ⟨.goto rfl rfl hk.symm, fun _ => rfl⟩
  | relTest =>
    simp only [Machine.lockStep] at h
    split at h
    · obtain rfl := Except.ok.inj h
      exact ⟨.goto rfl rfl hk.symm, fun _ => rfl⟩
    · obtain rfl := Except.ok.inj h
      exact ⟨.goto rfl rfl hk.symm, fun _ => rfl⟩
  | acqCheck =>
    obtain ⟨-, -, h⟩ := bind_eq_ok.mp h
    obtain rfl := Except.ok.inj h
    exact ⟨.goto rfl rfl hk.symm, fun _ => rfl⟩
  | relCheck =>
    obtain ⟨-, -, h⟩ := bind_eq_ok.mp h
    obtain rfl := Except.ok.inj h
    exact ⟨.goto rfl rfl hk.symm, fun _ => rfl⟩
  | relOne =>
    obtain ⟨-, -, h⟩ := bind_eq_ok.mp h
    obtain rfl := Except.ok.inj h
    exact ⟨.goto rfl rfl hk.symm, fun _ => rfl⟩
  | acqHolder | acqSet | acqLoad | acqStore n | relLoad | relStore n | relHolder | relRepeat =>
    obtain rfl := Except.ok.inj h
    exact ⟨.goto rfl rfl hk.symm, fun _ => rfl⟩

theorem steady_call {c : SyncCall ι} (hk : (m.pc m.sched.runningThread).client = k)
    (h : m.call c k = .ok m') : Steady m m' ∧
      ((∀ i, c = .semaDown i → (m.sema (.bare i)).value ≠ 0) →
        m'.sched.runningThread = m.sched.runningThread) := by
  cases c with
  | semaDown i =>
    obtain ⟨hsteady, hrun⟩ := steady_semaDown hk h
    exact ⟨hsteady, fun hne => hrun (hne i rfl)⟩
  | semaUp i =>
    obtain ⟨hsteady, hrun⟩ := steady_up h
    have hgoto : Steady m (m.goto (.run k)) := .goto rfl rfl hk.symm
    exact ⟨hgoto.trans hsteady, fun _ => hrun⟩
  | lockAcquire i =>
    obtain rfl := Except.ok.inj h
    exact ⟨.goto rfl rfl hk.symm, fun _ => rfl⟩
  | lockRelease i =>
    obtain rfl := Except.ok.inj h
    exact ⟨.goto rfl rfl hk.symm, fun _ => rfl⟩

end SyncSteps

/-! ### The invariant -/

section Invariant

variable {ι : Type} (addrV2p : Nat → Nat)

/-- The address space and the kernel stack that the processor uses are those of the running thread,
if it is a process. -/
def ActiveSpace (m : Machine ι InodePlace Cpu) : Prop :=
  m.data.pgdir m.sched.runningThread ≠ 0 →
    m.data.Loaded addrV2p m.sched.runningThread (m.data.pgdir m.sched.runningThread)

/-- Only the running thread has put its page directory aside, and the registers are still those of
that page directory. -/
structure SpaceInv (m : Machine ι InodePlace Cpu) : Prop where
  active : ActiveSpace addrV2p m
  aside : ∀ t, (m.pc t).client.bak ≠ 0 → t = m.sched.runningThread ∧
    m.data.Loaded addrV2p t (m.pc t).client.bak

/-- The condition on a step: `schedule` is not called while the running thread has its page
directory put aside. -/
def CpuAct.NotAside [DecidableEq ι] (m : Machine ι InodePlace Cpu) : CpuAct ι → Prop
  | .mach a => m.schedules a = true → (m.pc m.sched.runningThread).client.bak = 0
  | _ => True

end Invariant

theorem Cpu.processActivate_ok {addrV2p : Nat → Nat} {t : Nat} {c c' : Cpu}
    (h : c.processActivate addrV2p t = .ok c') :
    c'.pgdir = c.pgdir ∧ (c.pgdir t ≠ 0 → c'.Loaded addrV2p t (c.pgdir t)) := by
  obtain ⟨-, -, h⟩ := bind_eq_ok.mp h
  obtain rfl := Except.ok.inj h
  dsimp only [pageDirActivate]
  split
  · exact ⟨rfl, fun _ => ⟨rfl, rfl⟩⟩
  · next heq => exact ⟨rfl, fun hne => absurd hne heq⟩

namespace SpaceInv

variable {ι : Type} [DecidableEq ι] {addrV2p : Nat → Nat} {m m' m'' : Machine ι InodePlace Cpu}

theorem steady (h : SpaceInv addrV2p m) {a : MachAct InodePlace (ProcAct ι) Nat}
    (hsteady : Steady m m')
    (hrun : m.schedules a = false → m'.sched.runningThread = m.sched.runningThread)
    (hcond : (CpuAct.mach a).NotAside m)
    (hexec : m'.activate addrV2p (m.schedules a) = .ok m'') : SpaceInv addrV2p m'' := by
  unfold Machine.activate at hexec
  split at hexec
  · next hs =>
    obtain ⟨data, hdata, hpure⟩ := bind_eq_ok.mp hexec
    obtain rfl := Except.ok.inj hpure
    obtain ⟨hpgdir, hloaded⟩ := Cpu.processActivate_ok hdata
    refine ⟨fun hne => ?_, fun t ht => ?_⟩
    · simp only [hpgdir] at hne ⊢
      exact hloaded hne
    · rw [hsteady.client] at ht
      obtain ⟨rfl, -⟩ := h.aside t ht
      exact absurd (hcond hs) ht
  · next hs =>
    obtain rfl := Except.ok.inj hexec
    have hsame := hrun (Bool.eq_false_iff.mpr hs)
    refine ⟨?_, fun t ht => ?_⟩
    · unfold ActiveSpace
      rw [hsteady.data, hsame]
      exact h.active
    · rw [hsteady.client] at ht ⊢
      rw [hsteady.data, hsame]
      exact h.aside t ht

omit [DecidableEq ι] in
theorem newThread (h : SpaceInv addrV2p m) {thread : Nat} {s : Sched}
    (hnew : thread ≠ m.sched.runningThread) (hrun : s.runningThread = m.sched.runningThread)
    (pgdir : Nat) : SpaceInv addrV2p { m with
      sched := s
      data := m.data.setPgdir thread pgdir
      pc := Function.update m.pc thread (.run .code) } := by
  refine ⟨?_, fun t ht => ?_⟩
  · unfold ActiveSpace
    simp only [hrun, Cpu.setPgdir, Function.update_of_ne hnew.symm]
    exact h.active
  · simp only [Function.update_apply] at ht ⊢
    split at ht
    · exact absurd rfl ht
    · next hne =>
      rw [if_neg hne, hrun]
      exact h.aside t ht

omit [DecidableEq ι] in
theorem setPgdir (h : SpaceInv addrV2p m) {pgdir : Nat} {k : InodePlace} {s : Sched}
    (hrun : s.runningThread = m.sched.runningThread)
    (hpgdir : pgdir ≠ 0 → m.data.Loaded addrV2p m.sched.runningThread pgdir)
    (hbak : k.bak ≠ 0 → m.data.Loaded addrV2p m.sched.runningThread k.bak) :
    SpaceInv addrV2p { m with
      sched := s
      data := m.data.setPgdir m.sched.runningThread pgdir
      pc := Function.update m.pc m.sched.runningThread (.run k) } := by
  refine ⟨?_, fun t ht => ?_⟩
  · unfold ActiveSpace
    simp only [hrun, Cpu.setPgdir, Function.update_self]
    exact hpgdir
  · simp only [Function.update_apply] at ht ⊢
    split at ht
    · next heq =>
      rw [if_pos heq, hrun, heq]
      exact ⟨rfl, hbak ht⟩
    · next hne =>
      rw [if_neg hne, hrun]
      exact h.aside t ht

theorem client (h : SpaceInv addrV2p m) {a : ProcAct ι}
    (henabled : procClient.Enabled m (.client a)) (hstep : procClient.clientStep a m = .ok m')
    (hcond : (CpuAct.mach (.client a)).NotAside m)
    (hexec : m'.activate addrV2p (m.schedules (.client a)) = .ok m'') : SpaceInv addrV2p m'' := by
  obtain ⟨-, k, hpc, hguard⟩ := henabled
  simp only [Client.clientStep, hpc] at hstep
  have hk : (m.pc m.sched.runningThread).client = k := by rw [hpc]; rfl
  have hsched : ∀ s', Steady m { m with
      sched := s', pc := Function.update m.pc m.sched.runningThread (.run k) } :=
    fun s' => .goto rfl rfl hk.symm
  cases a with
  | call c =>
    simp only [procClient, procExec, pure_bind] at hstep
    rw [← hpc, Function.update_eq_self] at hstep
    obtain ⟨hsteady, hrun⟩ := steady_call hk hstep
    refine h.steady hsteady (fun hs => hrun ?_) hcond hexec
    rintro i rfl
    exact of_decide_eq_false hs
  | yield =>
    obtain ⟨x, hx, hstep⟩ := bind_eq_ok.mp hstep
    obtain ⟨s', -, hpure⟩ := bind_eq_ok.mp hx
    obtain rfl := Except.ok.inj hpure
    obtain rfl := Except.ok.inj hstep
    exact h.steady (a := .client .yield) (hsched s') (fun hs => Bool.noConfusion hs) hcond hexec
  | block stat =>
    obtain ⟨x, hx, hstep⟩ := bind_eq_ok.mp hstep
    obtain ⟨s', -, hpure⟩ := bind_eq_ok.mp hx
    obtain rfl := Except.ok.inj hpure
    obtain rfl := Except.ok.inj hstep
    exact h.steady (a := .client (.block stat)) (hsched s') (fun hs => Bool.noConfusion hs) hcond
      hexec
  | unblock t =>
    obtain ⟨x, hx, hstep⟩ := bind_eq_ok.mp hstep
    obtain ⟨s', hs', hpure⟩ := bind_eq_ok.mp hx
    obtain rfl := Except.ok.inj hpure
    obtain rfl := Except.ok.inj hstep
    exact h.steady (hsched s') (fun _ => threadUnblock_runningThread hs') hcond hexec
  | intr status =>
    obtain rfl := Except.ok.inj hstep
    exact h.steady (hsched (intrSetStatus status m.sched)) (fun _ => rfl) hcond hexec
  | inodeOpen =>
    obtain rfl : k = .code := hguard
    obtain rfl := Except.ok.inj hstep
    obtain rfl := Except.ok.inj hexec
    exact h.setPgdir rfl (fun hne => absurd rfl hne) h.active
  | inodeOpened =>
    cases k with
    | opening bak =>
      obtain rfl := Except.ok.inj hstep
      obtain rfl := Except.ok.inj hexec
      have haside := h.aside m.sched.runningThread
      rw [hk] at haside
      exact h.setPgdir rfl (fun hne => (haside hne).2) fun hne => absurd rfl hne
    | code | closing bak old => exact hguard.elim
  | inodeClose =>
    obtain rfl : k = .code := hguard
    obtain rfl := Except.ok.inj hstep
    obtain rfl := Except.ok.inj hexec
    exact h.setPgdir rfl (fun hne => absurd rfl hne) h.active
  | inodeClosed =>
    cases k with
    | closing bak old =>
      obtain rfl := Except.ok.inj hstep
      obtain rfl := Except.ok.inj hexec
      have haside := h.aside m.sched.runningThread
      rw [hk] at haside
      exact h.setPgdir rfl (fun hne => (haside hne).2) fun hne => absurd rfl hne
    | code | opening bak => exact hguard.elim

theorem step (h : SpaceInv addrV2p m) {a : CpuAct ι} (hcond : a.NotAside m)
    (hs : (cpuSystem addrV2p).Step m a m') : SpaceInv addrV2p m' := by
  obtain ⟨hguard, hexec⟩ := hs
  cases a with
  | diskIntr i =>
    obtain ⟨m₁, hup, hpure⟩ := bind_eq_ok.mp hexec
    obtain rfl := Except.ok.inj hpure
    obtain ⟨hsteady, hrun⟩ := steady_up hup
    refine ⟨?_, fun t ht => ?_⟩
    · unfold ActiveSpace
      simp only [intrSetStatus, hrun, hsteady.data]
      exact h.active
    · simp only [hsteady.client] at ht
      simp only [intrSetStatus, hrun, hsteady.data, hsteady.client]
      exact h.aside t ht
  | processExecute thread pgdir =>
    obtain ⟨s', hs', hpure⟩ := bind_eq_ok.mp hexec
    obtain rfl := Except.ok.inj hpure
    obtain ⟨-, -, -, hnew⟩ := hguard
    exact h.newThread hnew (processExecute_runningThread hs') pgdir
  | mach a =>
    obtain ⟨m₁, hstep, hexec⟩ := bind_eq_ok.mp hexec
    obtain ⟨henabled, hnew⟩ := hguard
    cases a with
    | tick =>
      obtain ⟨s', hs', hpure⟩ := bind_eq_ok.mp hstep
      obtain rfl := Except.ok.inj hpure
      have hsteady : Steady m { m with sched := s' } := ⟨rfl, fun _ => rfl⟩
      refine h.steady hsteady (fun hs => ?_) hcond hexec
      exact intrTimerHandler_runningThread hs' (of_decide_eq_false hs)
    | irq t =>
      obtain ⟨⟨s', c⟩, hs', hpure⟩ := bind_eq_ok.mp hstep
      obtain rfl := Except.ok.inj hpure
      obtain ⟨u, hu, hpure⟩ := bind_eq_ok.mp hs'
      obtain ⟨rfl, rfl⟩ := Prod.mk.inj (Except.ok.inj hpure)
      have hsteady : Steady m { m with sched := intrSetStatus .on u } := ⟨rfl, fun _ => rfl⟩
      have hsame := threadUnblock_runningThread hu
      exact h.steady hsteady (fun _ => hsame) hcond hexec
    | idleBlock =>
      obtain ⟨s', -, hpure⟩ := bind_eq_ok.mp hstep
      obtain rfl := Except.ok.inj hpure
      have hsteady : Steady m { m with sched := s' } := ⟨rfl, fun _ => rfl⟩
      exact h.steady (a := .idleBlock) hsteady (fun hs => Bool.noConfusion hs) hcond hexec
    | idleHlt =>
      obtain rfl := Except.ok.inj hstep
      have hsteady : Steady m { m with sched := intrSetStatus .on m.sched } := ⟨rfl, fun _ => rfl⟩
      exact h.steady hsteady (fun _ => rfl) hcond hexec
    | start thread prio k =>
      obtain ⟨s', hs', hpure⟩ := bind_eq_ok.mp hstep
      obtain rfl := Except.ok.inj hpure
      obtain rfl := Except.ok.inj hexec
      obtain ⟨-, -, rfl⟩ := henabled
      exact h.newThread hnew (threadStart_runningThread hs') 0
    | client a => exact h.client henabled hstep hcond hexec
    | sync =>
      simp only [Client.step, Machine.syncStep] at hstep
      split at hstep
      · next k hpc => exact absurd hpc (henabled k)
      · next r old k hpc =>
        obtain ⟨hsteady, hrun⟩ := steady_downPass (by rw [hpc]; rfl) hstep
        refine h.steady hsteady (fun hs => hrun ?_) hcond hexec
        simpa [Machine.schedules, hpc] using hs
      · next i p k hpc =>
        obtain ⟨hsteady, hrun⟩ := steady_lockStep (by rw [hpc]; rfl) hstep
        refine h.steady hsteady (fun hs => hrun ?_) hcond hexec
        by_cases hp : p = .acqDown
        · subst hp
          right
          simpa [Machine.schedules, hpc] using hs
        · exact .inl hp

theorem init (h : (cpuSystem addrV2p).init m) : SpaceInv addrV2p m := by
  obtain ⟨hfresh, hnone, -⟩ := h
  refine ⟨fun hne => absurd (hnone _) hne, fun t ht => ?_⟩
  obtain ⟨k, rfl, hk⟩ := hfresh.pc t
  rw [hk] at ht
  exact absurd rfl ht

end SpaceInv

/-! ### Runs -/

section Runs

variable {ι : Type} [DecidableEq ι]

instance (k : InodePlace) (s : Sched) (a : ProcAct ι) : Decidable (procGuard k s a) :=
  match a, k with
  | .call (.lockAcquire _), _ | .call (.lockRelease _), _ => inferInstanceAs (Decidable True)
  | .call (.semaDown _), k | .call (.semaUp _), k | .yield, k | .intr _, k | .inodeOpen, k
  | .inodeClose, k => inferInstanceAs (Decidable (k = .code))
  | .block _, _ | .unblock _, _ => inferInstanceAs (Decidable (_ ∧ _))
  | .inodeOpened, .opening _ | .inodeClosed, .closing .. => inferInstanceAs (Decidable True)
  | .inodeOpened, .code | .inodeOpened, .closing .. | .inodeClosed, .code
  | .inodeClosed, .opening _ => inferInstanceAs (Decidable False)

instance (m : Machine ι InodePlace Cpu) (a : MachAct InodePlace (ProcAct ι) Nat) :
    Decidable (procClient.Enabled m a) :=
  letI : ∀ t k s d a, Decidable ((procClient (ι := ι)).guard t k s d a) :=
    fun _ k s _ a => inferInstanceAs (Decidable (procGuard k s a))
  letI : DecidablePred (procClient (ι := ι)).start :=
    fun k => inferInstanceAs (Decidable (k = .code))
  Client.decidableEnabled _ m a

instance (addrV2p : Nat → Nat) (m : Machine ι InodePlace Cpu) (a : CpuAct ι) :
    Decidable ((cpuSystem addrV2p).guard m a) :=
  match a with
  | .mach (.start _ _ _) => inferInstanceAs (Decidable (_ ∧ _ ≠ _))
  | .mach .tick | .mach (.irq _) | .mach .idleBlock | .mach .idleHlt | .mach (.client _)
  | .mach .sync => inferInstanceAs (Decidable (_ ∧ True))
  | .diskIntr _ => inferInstanceAs (Decidable (_ = _))
  | .processExecute .. => inferInstanceAs (Decidable (_ ∧ _ ∧ _ ∧ _))

instance (m : Machine ι InodePlace Cpu) (a : CpuAct ι) : Decidable (a.NotAside m) :=
  match a with
  | .mach _ => inferInstanceAs (Decidable (_ → _))
  | .diskIntr _ | .processExecute .. => inferInstanceAs (Decidable True)

end Runs

/-- The translation of the pages of the kernel's heap while they are allocated in order. -/
def heapV2p (vaddr : Nat) : Nat := vaddr - 0xc0100000 + 0x200000

/-- `lock_acquire` of the kernel pool's lock, when it is free. -/
def acquireKernelPool : List (CpuAct PoolFlags) :=
  .mach (.client (.call (.lockAcquire .kernel))) :: List.replicate 5 (.mach .sync)

def releaseKernelPool : List (CpuAct PoolFlags) :=
  .mach (.client (.call (.lockRelease .kernel))) :: List.replicate 6 (.mach .sync)

/-- The main thread creates a process and goes on to do `acts`, until a timer interrupt finds that
it has no ticks left and the idle thread blocks. The process then comes to the `sys_malloc` of
`inode_open`, in a system call, with interrupts off. -/
def processOpens (acts : List (CpuAct PoolFlags)) : List (CpuAct PoolFlags) :=
  -- the parts have their types, so that no coercions between them are searched for
  ([.mach (.client (.intr .on)), .processExecute 0xc0101000 0xc0119000] :
    List (CpuAct PoolFlags)) ++ acts ++
    (List.replicate 32 (.mach .tick) : List (CpuAct PoolFlags)) ++
    ([.mach .idleBlock, .mach (.client (.intr .off)), .mach (.client .inodeOpen)] :
      List (CpuAct PoolFlags))

def bootCpu : Machine PoolFlags InodePlace Cpu := freshMachine .code ⟨fun _ => 0, 0x100000, 0⟩

def openAlone : List (CpuAct PoolFlags) :=
  processOpens [] ++ acquireKernelPool ++ releaseKernelPool ++ [.mach (.client .inodeOpened)]

/-- The main thread has the lock, so that the process has to wait for it, with its page directory
put aside; the main thread goes on, releases the lock and yields, and the process gets the lock. -/
def openContended : List (CpuAct PoolFlags) :=
  processOpens acquireKernelPool ++
    ([.mach (.client (.call (.lockAcquire .kernel))), .mach .sync, .mach .sync] :
      List (CpuAct PoolFlags)) ++
    releaseKernelPool ++ ([.mach (.client .yield)] : List (CpuAct PoolFlags)) ++
    (List.replicate 4 (.mach .sync) : List (CpuAct PoolFlags)) ++
    releaseKernelPool ++ ([.mach (.client .inodeOpened)] : List (CpuAct PoolFlags))

theorem bootCpu_init : (cpuSystem heapV2p).init bootCpu :=
  ⟨freshMachine_fresh (fun k => k = InodePlace.code) rfl _, fun _ => rfl, rfl⟩

/-- In every run in which `schedule` is never called while the running thread has its page directory
put aside, the processor always uses the address space and the kernel stack of the running process.
-/
theorem active_space {ι : Type} [DecidableEq ι] {addrV2p : Nat → Nat}
    {tr : List (Machine ι InodePlace Cpu × CpuAct ι)} {m : Machine ι InodePlace Cpu}
    (run : (cpuSystem addrV2p).Run tr m)
    (hcond : ∀ p ∈ tr, p.2.NotAside p.1) : ∀ u ∈ System.states tr m, ActiveSpace addrV2p u := by
  intro u hu
  obtain ⟨tr', run', hsub⟩ := run.of_mem_states hu
  exact (run'.invariant_of (C := fun m a => a.NotAside m) (I := SpaceInv addrV2p)
    (fun _ => SpaceInv.init) (fun _ _ _ hi ha hs => hi.step ha hs)
    fun p hp => hcond p (hsub p hp)).active

/-- The machine after `inode_open` of a process that was not interrupted in it. -/
def openedAlone : Machine PoolFlags InodePlace Cpu :=
  (((cpuSystem heapV2p).restrict fun m a => a.NotAside m).replay openAlone bootCpu).getD bootCpu

theorem active_space_openedAlone : ∃ tr, (cpuSystem heapV2p).Run tr openedAlone ∧
    openedAlone.data.pgdir openedAlone.sched.runningThread = 0xc0119000 ∧
    ∀ u ∈ System.states tr openedAlone, ActiveSpace heapV2p u := by
  have hboot : ((cpuSystem heapV2p).restrict fun m a => a.NotAside m).Reachable bootCpu :=
    ⟨[], .start bootCpu_init⟩
  obtain ⟨tr, run⟩ := hboot.replay_getD openAlone (by decide +kernel)
  obtain ⟨run, hcond⟩ := run.of_restrict
  exact ⟨tr, run, by decide +kernel, active_space run hcond⟩

/-- The machine after `inode_open` of a process that had to wait in it. -/
def openedContended : Machine PoolFlags InodePlace Cpu :=
  ((cpuSystem heapV2p).replay openContended bootCpu).getD bootCpu

/-- The process runs in the address space of the kernel. -/
theorem active_space_fails :
    (cpuSystem heapV2p).Reachable openedContended ∧ ¬ ActiveSpace heapV2p openedContended := by
  refine ⟨(System.Reachable.init bootCpu_init).replay_getD openContended (by decide +kernel),
    fun h => ?_⟩
  have hcr3 : openedContended.data.cr3 = 0x100000 := by decide +kernel
  have hpgdir : openedContended.data.pgdir openedContended.sched.runningThread = 0xc0119000 := by
    decide +kernel
  have hloaded := (h (by rw [hpgdir]; decide)).1
  rw [hcr3, hpgdir] at hloaded
  exact absurd hloaded (by decide)

end OriginOS
