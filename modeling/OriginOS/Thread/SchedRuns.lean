import Mathlib.Data.List.Nodup
import OriginOS.Lib.System
import OriginOS.Thread.SchedInvariant

/-! The runs of the scheduler: any order of timer ticks, yields, blocks, unblocks, thread creation
and idle-loop steps, from the state that `thread_init` leaves. -/

namespace OriginOS

open Lib Sched

/-- One operation on the threads. All but `tick` are calls of the running thread. -/
inductive SchedAct where
  | tick
  | yield
  | block (stat : TaskStatus)
  | unblock (t : Nat)
  | start (thread prio : Nat)
  | idleBlock
  | idleHlt
  | intr (status : IntrStatus)
deriving DecidableEq, Repr

/-- The scheduler's state and the threads created so far, the main thread included. -/
structure SchedState where
  sched : Sched
  created : List Nat

/-- When an operation can be called: the timer interrupts while interrupts are on, `thread_unblock`
gets a blocked thread, `get_kernel_pages` gives `thread_start` a page that is no PCB, and only the
idle thread runs the idle loop. -/
def SchedAct.Enabled (s : SchedState) : SchedAct → Prop
  | .tick => s.sched.intrStatus = .on
  | .yield => True
  | .block stat => stat.isBlocked = true
  | .unblock t => t ∈ s.created ∧ (s.sched.status t).isBlocked = true
  | .start thread _ => thread ≠ 0 ∧ thread ∉ s.created
  | .idleBlock | .idleHlt => s.sched.runningThread = s.sched.idleThread
  | .intr _ => True

instance (s : SchedState) : DecidablePred (SchedAct.Enabled s) := fun a => by
  cases a <;> simp only [SchedAct.Enabled] <;> infer_instance

/-- The effect of an operation. `idleBlock` and `idleHlt` are the two statements of the loop in
`idle`. -/
def SchedAct.exec (a : SchedAct) (s : SchedState) : Except Panic SchedState := do
  match a with
  | .tick => pure { s with sched := ← intrTimerHandler s.sched }
  | .yield => pure { s with sched := ← threadYield s.sched }
  | .block stat => pure { s with sched := ← threadBlock stat s.sched }
  | .unblock t => pure { s with sched := ← threadUnblock t s.sched }
  | .start thread prio =>
    pure { sched := ← threadStart thread prio s.sched, created := s.created ++ [thread] }
  | .idleBlock => pure { s with sched := ← threadBlock .blocked s.sched }
  | .idleHlt => pure { s with sched := intrSetStatus .on s.sched }
  | .intr status => pure { s with sched := intrSetStatus status s.sched }

/-- The scheduler as a system, started by `thread_init` on the boot thread. -/
def schedSystem : System SchedState SchedAct Panic where
  init s := ∃ (boot : Sched) (idlePage : Nat), idlePage ≠ 0 ∧ boot.runningThread ≠ 0 ∧
    idlePage ≠ boot.runningThread ∧ threadInit idlePage boot = .ok s.sched ∧
    s.created = [boot.runningThread, idlePage]
  guard := SchedAct.Enabled
  exec := SchedAct.exec

instance (s : SchedState) (a : SchedAct) : Decidable (schedSystem.guard s a) :=
  inferInstanceAs (Decidable (a.Enabled s))

/-- The invariant of the runs: `thread_all_list` is the list of the created threads. -/
structure SchedState.Inv (s : SchedState) : Prop where
  inv : s.sched.Inv
  all : s.sched.threadAllList = s.created

theorem SchedAct.exec_inv {s : SchedState} (h : s.Inv) {a : SchedAct} (ha : a.Enabled s) :
    ∃ s', a.exec s = .ok s' ∧ s'.Inv := by
  cases a with
  | tick =>
    obtain ⟨k, heq, hk⟩ := intrTimerHandler_ok h.inv
    exact ⟨{ s with sched := k }, by simp [exec, heq, pure, Except.pure], hk.inv,
      hk.all.trans h.all⟩
  | yield =>
    obtain ⟨k, heq, hk⟩ := threadYield_ok h.inv
    exact ⟨{ s with sched := k }, by simp [exec, heq, pure, Except.pure], hk.inv,
      hk.all.trans h.all⟩
  | block stat =>
    obtain ⟨k, heq, hk⟩ := threadBlock_ok h.inv stat ha
    exact ⟨{ s with sched := k }, by simp [exec, heq, pure, Except.pure], hk.inv,
      hk.all.trans h.all⟩
  | unblock t =>
    have heq := threadUnblock_ok h.inv.toConsistent ha.2
    exact ⟨{ s with sched := unblocked t s.sched }, by simp [exec, heq, pure, Except.pure],
      unblocked_inv h.inv (h.all ▸ ha.1) ha.2, h.all⟩
  | start thread prio =>
    obtain ⟨heq, hk⟩ := threadStart_ok h.inv prio (h.all ▸ ha.2) ha.1
    exact ⟨⟨started thread prio s.sched, s.created ++ [thread]⟩,
      by simp [exec, heq, pure, Except.pure], hk, congrArg (· ++ [thread]) h.all⟩
  | idleBlock =>
    obtain ⟨k, heq, hk⟩ := threadBlock_ok h.inv .blocked rfl
    exact ⟨{ s with sched := k }, by simp [exec, heq, pure, Except.pure], hk.inv,
      hk.all.trans h.all⟩
  | idleHlt => exact ⟨_, rfl, h.inv.intr .on, h.all⟩
  | intr status => exact ⟨_, rfl, h.inv.intr status, h.all⟩

theorem schedSystem_inv {s : SchedState} (h : schedSystem.Reachable s) : s.Inv := by
  refine h.invariant (fun s hi => ?_) fun s a t hs step => ?_
  · obtain ⟨boot, idlePage, h0, hmain, hne, heq, hcreated⟩ := hi
    obtain ⟨k, hk, hinv, hall, -⟩ := threadInit_ok h0 hmain hne
    have : s.sched = k := Except.ok.inj (heq.symm.trans hk)
    exact ⟨this ▸ hinv, by rw [this, hall, hcreated]⟩
  · obtain ⟨t', heq, ht'⟩ := SchedAct.exec_inv hs step.1
    exact (Except.ok.inj (step.2.symm.trans heq)) ▸ ht'

/-- What scheduling promises of a state: one thread runs, it is the current one and not on the
ready list; the ready list holds the ready threads once each; and `thread_all_list` holds every
created thread once. -/
structure SchedState.Sound (s : SchedState) : Prop where
  current : s.sched.runningThread ∈ s.created
  runing_iff : ∀ t ∈ s.created, s.sched.status t = .runing ↔ t = s.sched.runningThread
  current_not_ready : s.sched.runningThread ∉ s.sched.threadReadyList
  ready_iff : ∀ t ∈ s.created, t ∈ s.sched.threadReadyList ↔ s.sched.status t = .ready
  ready_once : ∀ t ∈ s.sched.threadReadyList, t ∈ s.created ∧ s.sched.threadReadyList.count t = 1
  all_once : ∀ t ∈ s.created, s.sched.threadAllList.count t = 1

theorem SchedState.Inv.sound {s : SchedState} (h : s.Inv) : s.Sound := by
  have hall : ∀ t, t ∈ s.created ↔ t ∈ s.sched.threadAllList := fun t => by rw [h.all]
  refine ⟨(hall _).mpr h.inv.running_mem, fun t ht => ⟨h.inv.runing t ((hall t).mp ht), ?_⟩,
    h.inv.running_not_ready, fun t ht => ?_, fun t ht => ⟨?_, ?_⟩, fun t ht => ?_⟩
  · rintro rfl
    exact h.inv.current
  · rw [h.inv.ready_iff]
    exact ⟨fun hr => hr.2, fun hr => ⟨(hall t).mp ht, hr⟩⟩
  · exact (hall t).mpr ((h.inv.ready_iff t).mp ht).1
  · exact List.count_eq_one_of_mem h.inv.readyNodup ht
  · exact List.count_eq_one_of_mem h.inv.allNodup ((hall t).mp ht)

/-- In every reachable state the scheduler is sound and no operation fails an assertion. -/
theorem scheduler_invariant (s : SchedState) (h : schedSystem.Reachable s) :
    s.Sound ∧ ∀ a : SchedAct, a.Enabled s → ∃ s', a.exec s = .ok s' := by
  have hinv := schedSystem_inv h
  refine ⟨hinv.sound, fun a ha => ?_⟩
  obtain ⟨s', heq, -⟩ := SchedAct.exec_inv hinv ha
  exact ⟨s', heq⟩

/-- The boot thread before `thread_init`, on the PCB page `0xc009e000`. -/
def bootSched : Sched where
  task _ := ⟨0, .died, 0, 0, 0, 0⟩
  runningThread := 0xc009e000
  mainThread := 0
  idleThread := 0
  threadReadyList := []
  threadAllList := []
  intrStatus := .off
  resume _ := .off
  ticks := 0
  nextPid := 0

/-- The state after `thread_init` with the first page of the kernel heap for the idle thread. -/
def bootState : SchedState where
  sched := (threadInit 0xc0100000 bootSched).toOption.getD bootSched
  created := [0xc009e000, 0xc0100000]

theorem bootState_reachable : schedSystem.Reachable bootState :=
  .init ⟨bootSched, 0xc0100000, by decide, by decide, by decide, rfl, rfl⟩

/-- The main thread hangs, so the idle thread runs alone and blocks with nobody else ready. -/
def idleAlone : SchedState :=
  (schedSystem.replay [.block .hanging, .idleHlt, .idleBlock] bootState).getD bootState

theorem scheduler_invariant_idleAlone :
    (idleAlone.sched.threadReadyList = [] ∧ idleAlone.sched.runningThread = 0xc0100000) ∧
      idleAlone.Sound ∧ ∀ a : SchedAct, a.Enabled idleAlone → ∃ s', a.exec idleAlone = .ok s' :=
  ⟨by decide, scheduler_invariant idleAlone
    (bootState_reachable.replay [.block .hanging, .idleHlt, .idleBlock] rfl)⟩

end OriginOS
