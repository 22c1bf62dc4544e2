import OriginOS.Thread.Sched

/-! What the scheduler keeps true: who runs, who is on the ready list, and that every operation of
`thread/thread.c` succeeds from such a state. -/

namespace OriginOS

namespace Sched

@[simp] theorem status_setTask (s : Sched) (t u : Nat) (task : TaskStruct) :
    (s.setTask t task).status u = if u = t then task.status else s.status u := by
  simp only [status, setTask, Function.update_apply]
  split <;> rfl

@[simp] theorem status_setStatus (s : Sched) (t u : Nat) (st : TaskStatus) :
    (s.setStatus t st).status u = if u = t then st else s.status u := by
  simp [setStatus]

theorem task_setTask (s : Sched) (t u : Nat) (task : TaskStruct) :
    (s.setTask t task).task u = if u = t then task else s.task u := by
  simp [setTask, Function.update_apply]

theorem stackMagic_setStatus (s : Sched) (t u : Nat) (st : TaskStatus) :
    ((s.setStatus t st).task u).stackMagic = (s.task u).stackMagic := by
  simp only [setStatus, task_setTask]
  split
  · next h => rw [h]
  · rfl

/-- The parts of the state that a switch between existing threads does not touch. -/
structure Same (s s' : Sched) : Prop where
  all : s'.threadAllList = s.threadAllList
  idle : s'.idleThread = s.idleThread
  main : s'.mainThread = s.mainThread
  resume : s'.resume = s.resume

theorem Same.trans {s s' s'' : Sched} (h : Same s s') (h' : Same s' s'') : Same s s'' :=
  ⟨h'.all.trans h.all, h'.idle.trans h.idle, h'.main.trans h.main, h'.resume.trans h.resume⟩

/-- The lists and the statuses agree: the ready list holds exactly the ready threads, once each,
and no thread but the running one has status `TASK_RUNING`. -/
structure Consistent (s : Sched) : Prop where
  allNodup : s.threadAllList.Nodup
  running_mem : s.runningThread ∈ s.threadAllList
  idle_mem : s.idleThread ∈ s.threadAllList
  main_mem : s.mainThread ∈ s.threadAllList
  readyNodup : s.threadReadyList.Nodup
  ready_iff : ∀ t, t ∈ s.threadReadyList ↔ t ∈ s.threadAllList ∧ s.status t = .ready
  runing : ∀ t ∈ s.threadAllList, s.status t = .runing → t = s.runningThread
  alive : ∀ t ∈ s.threadAllList, s.status t ≠ .died
  magic : ∀ t ∈ s.threadAllList, (s.task t).stackMagic = 0x19870916

/-- The scheduler's invariant between operations: the lists agree and the running thread has
status `TASK_RUNING`. -/
structure Inv (s : Sched) : Prop extends Consistent s where
  current : s.status s.runningThread = .runing

theorem Consistent.intr {s : Sched} (h : s.Consistent) (st : IntrStatus) :
    ({ s with intrStatus := st } : Sched).Consistent :=
  ⟨h.allNodup, h.running_mem, h.idle_mem, h.main_mem, h.readyNodup, h.ready_iff, h.runing,
  h.alive, h.magic⟩

theorem Consistent.saveIntr {s : Sched} (h : s.Consistent) (st : IntrStatus) :
    (s.saveIntr st).Consistent :=
  ⟨h.allNodup, h.running_mem, h.idle_mem, h.main_mem, h.readyNodup, h.ready_iff, h.runing,
  h.alive, h.magic⟩

theorem Inv.intr {s : Sched} (h : s.Inv) (st : IntrStatus) :
    ({ s with intrStatus := st } : Sched).Inv :=
  ⟨h.toConsistent.intr st, h.current⟩

theorem Inv.running_not_ready {s : Sched} (h : s.Inv) : s.runningThread ∉ s.threadReadyList := by
  intro mem
  have hready := ((h.ready_iff _).mp mem).2
  rw [h.current] at hready
  exact absurd hready (by decide)

theorem isBlocked_ne_ready {st : TaskStatus} (h : st.isBlocked = true) : st ≠ .ready := by
  rintro rfl
  exact absurd h (by decide)

theorem isBlocked_ne_runing {st : TaskStatus} (h : st.isBlocked = true) : st ≠ .runing := by
  rintro rfl
  exact absurd h (by decide)

theorem isBlocked_of {st : TaskStatus} (h1 : st ≠ .runing) (h2 : st ≠ .ready) (h3 : st ≠ .died) :
    st.isBlocked = true := by
  cases st <;> first | rfl | contradiction

end Sched

open Sched

/-- The state after `thread_unblock` of a blocked thread. -/
def unblocked (t : Nat) (s : Sched) : Sched :=
  { s with threadReadyList := t :: s.threadReadyList }.setStatus t .ready

theorem unblocked_status (t u : Nat) (s : Sched) :
    (unblocked t s).status u = if u = t then .ready else s.status u :=
  status_setStatus _ t u .ready

theorem unblocked_same (t : Nat) (s : Sched) : Same s (unblocked t s) := ⟨rfl, rfl, rfl, rfl⟩

theorem threadUnblock_eq {s : Sched} {t : Nat} (hb : (s.status t).isBlocked = true)
    (hr : t ∉ s.threadReadyList) : threadUnblock t s = .ok (unblocked t s) := by
  have hs : (intrDisable s).status t = s.status t := rfl
  have hl : (intrDisable s).threadReadyList = s.threadReadyList := rfl
  simp only [threadUnblock, hs, hl, hb, hr, assert_true, ok_bind, if_pos (isBlocked_ne_ready hb),
    not_false_eq_true, decide_true, if_false, pure, Except.pure]
  rfl

theorem threadUnblock_ok {s : Sched} {t : Nat} (h : s.Consistent)
    (hb : (s.status t).isBlocked = true) : threadUnblock t s = .ok (unblocked t s) :=
  threadUnblock_eq hb fun mem => isBlocked_ne_ready hb ((h.ready_iff t).mp mem).2

theorem unblocked_consistent {s : Sched} {t : Nat} (h : s.Consistent) (ht : t ∈ s.threadAllList)
    (hb : (s.status t).isBlocked = true) : (unblocked t s).Consistent := by
  have hr : t ∉ s.threadReadyList := fun mem =>
    isBlocked_ne_ready hb ((h.ready_iff t).mp mem).2
  refine ⟨h.allNodup, h.running_mem, h.idle_mem, h.main_mem, ?_, ?_, ?_, ?_, ?_⟩
  · exact List.nodup_cons.mpr ⟨hr, h.readyNodup⟩
  · intro u
    show u ∈ t :: s.threadReadyList ↔ u ∈ s.threadAllList ∧ (unblocked t s).status u = .ready
    rw [List.mem_cons, h.ready_iff, unblocked_status]
    by_cases hu : u = t
    · subst hu; simp [ht]
    · simp [hu]
  · intro u hu
    rw [unblocked_status]
    split
    · intro h'; exact absurd h' (by decide)
    · exact h.runing u hu
  · intro u hu
    rw [unblocked_status]
    split
    · decide
    · exact h.alive u hu
  · intro u hu
    rw [unblocked, stackMagic_setStatus]
    exact h.magic u hu

/-- `thread_unblock` between operations keeps the invariant: the running thread is not blocked. -/
theorem unblocked_inv {s : Sched} {t : Nat} (h : s.Inv) (ht : t ∈ s.threadAllList)
    (hb : (s.status t).isBlocked = true) : (unblocked t s).Inv := by
  refine ⟨unblocked_consistent h.toConsistent ht hb, ?_⟩
  show (unblocked t s).status s.runningThread = .runing
  rw [unblocked_status, if_neg, h.current]
  rintro rfl
  exact isBlocked_ne_runing hb h.current

/-- The state after the running thread went to the end of the ready list. -/
def requeued (s : Sched) : Sched :=
  { s with threadReadyList := s.threadReadyList ++ [s.runningThread] }.setTask s.runningThread
    { s.task s.runningThread with
      ticks := (s.task s.runningThread).priority, status := .ready }

theorem requeued_status (u : Nat) (s : Sched) :
    (requeued s).status u = if u = s.runningThread then .ready else s.status u :=
  status_setTask _ _ u _

theorem requeued_same (s : Sched) : Same s (requeued s) := ⟨rfl, rfl, rfl, rfl⟩

theorem scheduleRequeue_runing {s : Sched} (h : s.Inv) : scheduleRequeue s = .ok (requeued s) := by
  simp only [scheduleRequeue, if_pos h.current, h.running_not_ready, not_false_eq_true,
    decide_true, assert_true, ok_bind]
  rfl

theorem scheduleRequeue_not {s : Sched} (h : s.status s.runningThread ≠ .runing) :
    scheduleRequeue s = .ok s := by
  simp only [scheduleRequeue, if_neg h]
  rfl

/-- Appending a thread that is not ready yet to the ready list, with status `TASK_READY`. -/
theorem Sched.Consistent.append_ready {s s' : Sched} (h : s.Consistent) {t : Nat}
    (ht : t ∈ s.threadAllList) (hr : t ∉ s.threadReadyList) (same : Same s s')
    (hrun : s'.runningThread = s.runningThread)
    (hl : s'.threadReadyList = s.threadReadyList ++ [t])
    (hst : ∀ u, s'.status u = if u = t then .ready else s.status u)
    (hmagic : ∀ u, (s'.task u).stackMagic = (s.task u).stackMagic) : s'.Consistent := by
  refine ⟨same.all ▸ h.allNodup, ?_, ?_, ?_, ?_, ?_, ?_, ?_, ?_⟩
  · rw [hrun, same.all]; exact h.running_mem
  · rw [same.idle, same.all]; exact h.idle_mem
  · rw [same.main, same.all]; exact h.main_mem
  · rw [hl]
    exact List.nodup_append.mpr ⟨h.readyNodup, by simp, by
      rintro a ha b hb rfl
      exact hr (by simpa using List.mem_singleton.mp hb ▸ ha)⟩
  · intro u
    rw [hl, List.mem_append, h.ready_iff, same.all, hst]
    by_cases hu : u = t
    · subst hu; simp [ht]
    · simp [hu]
  · intro u hu
    rw [hst, hrun]
    rw [same.all] at hu
    split
    · intro h'; exact absurd h' (by decide)
    · exact h.runing u hu
  · intro u hu
    rw [hst]
    rw [same.all] at hu
    split
    · decide
    · exact h.alive u hu
  · intro u hu
    rw [hmagic]
    exact h.magic u (same.all ▸ hu)

theorem requeued_consistent {s : Sched} (h : s.Inv) : (requeued s).Consistent := by
  refine h.toConsistent.append_ready h.running_mem h.running_not_ready ⟨rfl, rfl, rfl, rfl⟩ rfl rfl
    (fun u => requeued_status u s) fun u => ?_
  rw [requeued, task_setTask]
  split
  · next hu => rw [hu]
  · rfl

/-- The state after `next`, the head of the ready list, was taken off it and switched in. -/
def switched (next : Nat) (rest : List Nat) (s : Sched) : Sched :=
  switchTo next ({ s with threadReadyList := rest }.setStatus next .runing)

theorem switched_status (next : Nat) (rest : List Nat) (u : Nat) (s : Sched) :
    (switched next rest s).status u = if u = next then .runing else s.status u :=
  status_setStatus _ next u .runing

theorem scheduleNext_cons {s : Sched} {next : Nat} {rest : List Nat}
    (hl : s.threadReadyList = next :: rest) : scheduleNext s = .ok (switched next rest s) := by
  rw [scheduleNext, hl]
  rfl

theorem switched_inv {s : Sched} {next : Nat} {rest : List Nat} (h : s.Consistent)
    (hl : s.threadReadyList = next :: rest)
    (hnone : ∀ t ∈ s.threadAllList, s.status t ≠ .runing) : (switched next rest s).Inv := by
  have hnext := (h.ready_iff next).mp (by rw [hl]; exact List.mem_cons_self)
  have hnodup : next ∉ rest ∧ rest.Nodup := List.nodup_cons.mp (hl ▸ h.readyNodup)
  refine ⟨⟨h.allNodup, hnext.1, h.idle_mem, h.main_mem, hnodup.2, ?_, ?_, ?_, ?_⟩, ?_⟩
  · intro u
    show u ∈ rest ↔ u ∈ s.threadAllList ∧ (switched next rest s).status u = .ready
    rw [switched_status]
    have hu := h.ready_iff u
    rw [hl, List.mem_cons] at hu
    by_cases hun : u = next
    · subst hun; simp [hnodup.1]
    · simpa [hun] using hu
  · intro u hu
    rw [switched_status]
    split
    · next hun => exact fun _ => hun
    · exact fun hr => absurd hr (hnone u hu)
  · intro u hu
    rw [switched_status]
    split
    · decide
    · exact h.alive u hu
  · intro u hu
    refine Eq.trans ?_ (h.magic u hu)
    exact stackMagic_setStatus { s with threadReadyList := rest } next u .runing
  · show (switched next rest s).status next = .runing
    rw [switched_status, if_pos rfl]

/-- The interrupt status that thread `t` runs with, now or when it is switched in again. -/
def Sched.intrOf (s : Sched) (t : Nat) : IntrStatus :=
  if t = s.runningThread then s.intrStatus else s.resume t

theorem intrOf_of_saved {s s' : Sched}
    (hresume : s'.resume = Function.update s.resume s.runningThread s.intrStatus)
    (hintr : s'.intrStatus = s'.resume s'.runningThread) (t : Nat) : s'.intrOf t = s.intrOf t := by
  have hsaved : s'.intrOf t = s'.resume t := by
    rw [Sched.intrOf]
    split
    · next ht => rw [ht, hintr]
    · rfl
  rw [hsaved, hresume, Function.update_apply]
  rfl

/-- What `schedule` does to the other threads: apart from the idle thread, which it may unblock,
blocked threads stay as they are and no thread gets blocked. -/
structure Switched (s s' : Sched) : Prop where
  inv : s'.Inv
  same : Same s s'
  blocked : ∀ t, t ≠ s.idleThread → (s.status t).isBlocked = true ∨ (s'.status t).isBlocked = true →
    s'.status t = s.status t
  outside : ∀ t, t ∉ s.threadAllList → s'.status t = s.status t
  intr : s'.intrStatus = s.resume s'.runningThread

theorem switched_switched {s : Sched} {next : Nat} {rest : List Nat} (h : s.Consistent)
    (hl : s.threadReadyList = next :: rest)
    (hnone : ∀ t ∈ s.threadAllList, s.status t ≠ .runing) :
    Switched s (switched next rest s) := by
  have hnext := (h.ready_iff next).mp (by rw [hl]; exact List.mem_cons_self)
  refine ⟨switched_inv h hl hnone, ⟨rfl, rfl, rfl, rfl⟩, fun t _ hb => ?_, fun t ht => ?_, rfl⟩
  · rw [switched_status] at hb ⊢
    split at hb
    · next hun =>
      subst hun
      rw [hnext.2] at hb
      exact absurd hb (by decide)
    · next hun => rw [if_neg hun]
  · rw [switched_status, if_neg]
    rintro rfl
    exact ht hnext.1

theorem schedule_runing {s : Sched} (h : s.Inv) (hi : s.intrStatus = .off) :
    ∃ s', schedule s = .ok s' ∧ Switched s s' := by
  have hnone : ∀ t ∈ (requeued s).threadAllList, (requeued s).status t ≠ .runing := by
    intro t ht
    rw [requeued_status]
    split
    · decide
    · next hne => exact fun hr => hne (h.runing t ht hr)
  obtain ⟨next, rest, hl⟩ : ∃ next rest, (requeued s).threadReadyList = next :: rest :=
    List.exists_cons_of_ne_nil (by simp [requeued, setTask])
  have hnot : (requeued s).threadReadyList ≠ [] := by rw [hl]; simp
  have hsw := switched_switched (requeued_consistent h) hl hnone
  refine ⟨switched next rest (requeued s), ?_, hsw.inv, (requeued_same s).trans hsw.same,
    fun t hti hb => ?_, fun t ht => ?_, hsw.intr⟩
  · simp only [schedule, hi, decide_true, assert_true, ok_bind, scheduleRequeue_runing h,
      if_neg hnot, scheduleNext_cons hl, pure, Except.pure]
  · have hreq := requeued_status t s
    by_cases htc : t = s.runningThread
    · rw [if_pos htc] at hreq
      subst htc
      rcases hb with hb | hb
      · exact absurd h.current (isBlocked_ne_runing hb)
      · rw [hsw.blocked _ hti (.inr hb), hreq] at hb
        exact absurd hb (by decide)
    · rw [if_neg htc] at hreq
      rw [← hreq] at hb ⊢
      exact hsw.blocked t hti hb
  · rw [hsw.outside t ht, requeued_status, if_neg]
    rintro rfl
    exact ht h.running_mem

theorem idle_isBlocked {s : Sched} (h : s.Consistent)
    (hnone : ∀ t ∈ s.threadAllList, s.status t ≠ .runing) (hempty : s.threadReadyList = []) :
    (s.status s.idleThread).isBlocked = true := by
  refine isBlocked_of (hnone _ h.idle_mem) (fun hready => ?_) (h.alive _ h.idle_mem)
  have mem := (h.ready_iff s.idleThread).mpr ⟨h.idle_mem, hready⟩
  rw [hempty] at mem
  exact absurd mem (by simp)

theorem schedule_empty {s : Sched} (h : s.Consistent) (hi : s.intrStatus = .off)
    (hc : s.status s.runningThread ≠ .runing) (hempty : s.threadReadyList = []) :
    ∃ s', schedule s = .ok s' ∧ Switched s s' := by
  have hnone : ∀ t ∈ s.threadAllList, s.status t ≠ .runing := fun t ht hr =>
    hc (h.runing t ht hr ▸ hr)
  have hidle := idle_isBlocked h hnone hempty
  have hl : (unblocked s.idleThread s).threadReadyList = s.idleThread :: [] :=
    congrArg (List.cons s.idleThread) hempty
  have hnone' : ∀ t ∈ (unblocked s.idleThread s).threadAllList,
      (unblocked s.idleThread s).status t ≠ .runing := by
    intro t ht
    rw [unblocked_status]
    split
    · decide
    · exact hnone t ht
  have hsw := switched_switched (unblocked_consistent h h.idle_mem hidle) hl hnone'
  refine ⟨switched s.idleThread [] (unblocked s.idleThread s), ?_, hsw.inv,
    (unblocked_same s.idleThread s).trans hsw.same, fun t hti hb => ?_, fun t ht => ?_, hsw.intr⟩
  · simp only [schedule, hi, decide_true, assert_true, ok_bind, scheduleRequeue_not hc,
      if_pos hempty, threadUnblock_ok h hidle, scheduleNext_cons hl]
  · have hun := unblocked_status s.idleThread t s
    rw [if_neg hti] at hun
    rw [← hun] at hb ⊢
    exact hsw.blocked t hti hb
  · rw [hsw.outside t ht, unblocked_status, if_neg]
    rintro rfl
    exact ht h.idle_mem

/-- `schedule` succeeds with interrupts off, whatever its caller did with its own status. In
particular, when it finds the ready list empty the idle thread is blocked, also when the idle
thread itself is the caller. -/
theorem schedule_ok {s : Sched} (h : s.Consistent) (hi : s.intrStatus = .off) :
    ∃ s', schedule s = .ok s' ∧ Switched s s' := by
  by_cases hc : s.status s.runningThread = .runing
  · exact schedule_runing ⟨h, hc⟩ hi
  · by_cases hempty : s.threadReadyList = []
    · exact schedule_empty h hi hc hempty
    · obtain ⟨next, rest, hl⟩ := List.exists_cons_of_ne_nil hempty
      refine ⟨switched next rest s, ?_, switched_switched h hl fun t ht hr =>
        hc (h.runing t ht hr ▸ hr)⟩
      simp only [schedule, hi, decide_true, assert_true, ok_bind, scheduleRequeue_not hc,
        if_neg hempty, scheduleNext_cons hl, pure, Except.pure]

theorem Sched.Inv.setBlocked {s : Sched} (h : s.Inv) {stat : TaskStatus}
    (hb : stat.isBlocked = true) : (s.setStatus s.runningThread stat).Consistent := by
  refine ⟨h.allNodup, h.running_mem, h.idle_mem, h.main_mem, h.readyNodup, ?_, ?_, ?_, ?_⟩
  · intro t
    show t ∈ s.threadReadyList ↔ t ∈ s.threadAllList ∧ _
    rw [status_setStatus, h.ready_iff]
    split
    · next ht =>
      subst ht
      simp [h.current, isBlocked_ne_ready hb]
    · rfl
  · intro t ht
    rw [status_setStatus]
    split
    · exact fun hr => absurd hr (isBlocked_ne_runing hb)
    · exact h.runing t ht
  · intro t ht
    rw [status_setStatus]
    split
    · rintro rfl; exact absurd hb (by decide)
    · exact h.alive t ht
  · intro t ht
    rw [stackMagic_setStatus]
    exact h.magic t ht

/-- What `thread_block` does: the caller has the given status, apart from the idle thread blocked
threads stay as they are and no other thread gets blocked. -/
structure Blocked (stat : TaskStatus) (s s' : Sched) : Prop where
  inv : s'.Inv
  all : s'.threadAllList = s.threadAllList
  idle : s'.idleThread = s.idleThread
  resume : s'.resume = Function.update s.resume s.runningThread s.intrStatus
  self : s.runningThread ≠ s.idleThread → s'.status s.runningThread = stat
  blocked : ∀ t, t ≠ s.idleThread → t ≠ s.runningThread →
    (s.status t).isBlocked = true ∨ (s'.status t).isBlocked = true → s'.status t = s.status t
  outside : ∀ t, t ∉ s.threadAllList → s'.status t = s.status t
  intr : s'.intrStatus = s'.resume s'.runningThread

theorem threadBlock_ok {s : Sched} (h : s.Inv) (stat : TaskStatus) (hb : stat.isBlocked = true) :
    ∃ s', threadBlock stat s = .ok s' ∧ Blocked stat s s' := by
  have hcons := ((h.toConsistent.saveIntr s.intrStatus).intr .off)
  have hinv : (intrDisable (s.saveIntr s.intrStatus)).Inv := ⟨hcons, h.current⟩
  obtain ⟨s', heq, hsw⟩ := schedule_ok (hinv.setBlocked hb) rfl
  have hst : ∀ t, ((intrDisable (s.saveIntr s.intrStatus)).setStatus s.runningThread stat).status t
      = if t = s.runningThread then stat else s.status t := fun t => status_setStatus _ _ t stat
  refine ⟨s', ?_, hsw.inv, hsw.same.all, hsw.same.idle, hsw.same.resume, fun hne => ?_,
    fun t hti htr hbl => ?_, fun t ht => ?_, ?_⟩
  · simp only [threadBlock, hb, assert_true, ok_bind]
    exact heq
  · have hself := hst s.runningThread
    rw [if_pos rfl] at hself
    rw [← hself]
    exact hsw.blocked _ hne (.inl (by
      show (((intrDisable (s.saveIntr s.intrStatus)).setStatus s.runningThread stat).status
        s.runningThread).isBlocked = true
      rw [hself]; exact hb))
  · have hself := hst t
    rw [if_neg htr] at hself
    rw [← hself] at hbl ⊢
    exact hsw.blocked t hti hbl
  · refine (hsw.outside t ht).trans ((hst t).trans (if_neg ?_))
    rintro rfl
    exact ht h.running_mem
  · rw [hsw.same.resume]; exact hsw.intr

theorem Blocked.intrOf {stat : TaskStatus} {s s' : Sched} (h : Blocked stat s s') (t : Nat) :
    s'.intrOf t = s.intrOf t :=
  intrOf_of_saved h.resume h.intr t

/-- What a switch that no thread blocks in does: `thread_yield` and a timer tick. -/
structure Passed (s s' : Sched) : Prop where
  inv : s'.Inv
  all : s'.threadAllList = s.threadAllList
  idle : s'.idleThread = s.idleThread
  blocked : ∀ t, t ≠ s.idleThread →
    (s.status t).isBlocked = true ∨ (s'.status t).isBlocked = true → s'.status t = s.status t
  outside : ∀ t, t ∉ s.threadAllList → s'.status t = s.status t
  intrOf : ∀ t, s'.intrOf t = s.intrOf t

theorem threadYield_ok {s : Sched} (h : s.Inv) : ∃ s', threadYield s = .ok s' ∧ Passed s s' := by
  have hcons := ((h.toConsistent.saveIntr s.intrStatus).intr .off)
  let mid : Sched := ({ intrDisable (s.saveIntr s.intrStatus) with
    threadReadyList := s.threadReadyList ++ [s.runningThread] }).setStatus s.runningThread .ready
  have hst : ∀ t, mid.status t = if t = s.runningThread then .ready else s.status t := fun t =>
    status_setStatus _ _ t .ready
  have hmid : mid.Consistent :=
    hcons.append_ready h.running_mem h.running_not_ready ⟨rfl, rfl, rfl, rfl⟩ rfl rfl hst
      fun u => stackMagic_setStatus _ _ u .ready
  obtain ⟨s', heq, hsw⟩ := schedule_ok hmid rfl
  refine ⟨s', ?_, hsw.inv, hsw.same.all, hsw.same.idle, fun t hti hb => ?_, fun t ht => ?_,
    intrOf_of_saved hsw.same.resume (hsw.same.resume ▸ hsw.intr)⟩
  · have hr : s.runningThread ∉ (intrDisable (s.saveIntr s.intrStatus)).threadReadyList :=
      h.running_not_ready
    simp only [threadYield, hr, not_false_eq_true, decide_true, assert_true, ok_bind]
    exact heq
  · by_cases htr : t = s.runningThread
    · have hready := hst t
      rw [if_pos htr] at hready
      rcases hb with hb | hb
      · rw [htr, h.current] at hb
        exact absurd hb (by decide)
      · rw [hsw.blocked t hti (.inr hb), hready] at hb
        exact absurd hb (by decide)
    · have hsame := hst t
      rw [if_neg htr] at hsame
      rw [← hsame] at hb ⊢
      exact hsw.blocked t hti hb
  · refine (hsw.outside t ht).trans ((hst t).trans (if_neg ?_))
    rintro rfl
    exact ht h.running_mem

theorem Sched.Inv.setTask {s : Sched} (h : s.Inv) (task : TaskStruct)
    (hst : task.status = .runing) (hm : task.stackMagic = 0x19870916) :
    (s.setTask s.runningThread task).Inv := by
  have hs : ∀ t, (s.setTask s.runningThread task).status t = s.status t := by
    intro t
    rw [status_setTask]
    split
    · next ht => rw [ht, hst, h.current]
    · rfl
  refine ⟨⟨h.allNodup, h.running_mem, h.idle_mem, h.main_mem, h.readyNodup, ?_, ?_, ?_, ?_⟩, ?_⟩
  · intro t; rw [hs]; exact h.ready_iff t
  · intro t ht; rw [hs]; exact h.runing t ht
  · intro t ht; rw [hs]; exact h.alive t ht
  · intro t ht
    rw [task_setTask]
    split
    · exact hm
    · exact h.magic t ht
  · exact (hs _).trans h.current

theorem intrTimerHandler_ok {s : Sched} (h : s.Inv) :
    ∃ s', intrTimerHandler s = .ok s' ∧ Passed s s' := by
  have hmagic := h.magic _ h.running_mem
  let entry := intrDisable (s.saveIntr s.intrStatus)
  have hentry : entry.Inv := ⟨(h.toConsistent.saveIntr s.intrStatus).intr .off, h.current⟩
  let task := s.task s.runningThread
  let counted : Sched := { entry.setTask s.runningThread
    { task with elapsedTicks := (task.elapsedTicks + 1) % 2 ^ 32 } with
    ticks := (s.ticks + 1) % 2 ^ 32 }
  have hstep : (entry.setTask s.runningThread
      { task with elapsedTicks := (task.elapsedTicks + 1) % 2 ^ 32 }).Inv :=
    hentry.setTask _ h.current hmagic
  have hcounted : counted.Inv :=
    ⟨⟨hstep.allNodup, hstep.running_mem, hstep.idle_mem, hstep.main_mem, hstep.readyNodup,
    hstep.ready_iff,
      hstep.runing, hstep.alive, hstep.magic⟩, hstep.current⟩
  have hst : ∀ t, counted.status t = s.status t := by
    intro t
    refine (status_setTask _ _ t _).trans ?_
    split
    · next ht => rw [ht]; rfl
    · rfl
  have hmagic' : (decide ((entry.task entry.runningThread).stackMagic = 0x19870916)) = true :=
    decide_eq_true hmagic
  by_cases hz : task.ticks = 0
  · obtain ⟨s', heq, hsw⟩ := schedule_runing hcounted rfl
    refine ⟨s', ?_, hsw.inv, hsw.same.all, hsw.same.idle, fun t hti hb => ?_, fun t ht => ?_,
      intrOf_of_saved hsw.same.resume (hsw.same.resume ▸ hsw.intr)⟩
    · have hz' : (entry.task entry.runningThread).ticks = 0 := hz
      simp only [intrTimerHandler]
      rw [assert_of hmagic', ok_bind, if_pos hz']
      exact heq
    · rw [← hst t] at hb ⊢
      exact hsw.blocked t hti hb
    · rw [← hst t]
      exact hsw.outside t ht
  · have hlast := hcounted.setTask
      { counted.task s.runningThread with ticks := task.ticks - 1 } hcounted.current
      (hcounted.magic _ h.running_mem)
    have hst' : ∀ t, (counted.setTask s.runningThread
        { counted.task s.runningThread with ticks := task.ticks - 1 }).status t = s.status t := by
      intro t
      rw [status_setTask]
      split
      · next ht => rw [ht]; exact hst _
      · exact hst t
    refine ⟨_, ?_, hlast.intr (counted.resume s.runningThread), rfl, rfl, fun t _ _ => hst' t,
      fun t _ => hst' t, intrOf_of_saved rfl rfl⟩
    have hz' : ¬ (entry.task entry.runningThread).ticks = 0 := hz
    simp only [intrTimerHandler]
    rw [assert_of hmagic', ok_bind, if_neg hz']
    rfl

/-- The PCB that `init_thread` fills in for a thread other than the main one. -/
def newTask (prio : Nat) (s : Sched) : TaskStruct :=
  { pid := (s.nextPid + 1) % 2 ^ 16, status := .ready, priority := prio % 2 ^ 8,
    ticks := prio % 2 ^ 8, elapsedTicks := 0, stackMagic := 0x19870916 }

/-- The state after `thread_start` put the new thread on both lists. -/
def started (thread prio : Nat) (s : Sched) : Sched :=
  { ({ s with nextPid := (s.nextPid + 1) % 2 ^ 16 } : Sched).setTask thread (newTask prio s) with
    resume := Function.update s.resume thread .on
    threadReadyList := s.threadReadyList ++ [thread]
    threadAllList := s.threadAllList ++ [thread] }

theorem started_status (thread prio t : Nat) (s : Sched) :
    (started thread prio s).status t = if t = thread then .ready else s.status t :=
  status_setTask _ thread t (newTask prio s)

theorem started_magic (thread prio t : Nat) (s : Sched) :
    ((started thread prio s).task t).stackMagic =
      if t = thread then 0x19870916 else (s.task t).stackMagic := by
  refine (congrArg TaskStruct.stackMagic (task_setTask _ thread t (newTask prio s))).trans ?_
  split <;> rfl

theorem threadStart_eq {s : Sched} {thread : Nat} (prio : Nat) (hnull : thread ≠ 0)
    (hmain : thread ≠ s.mainThread) (hready : thread ∉ s.threadReadyList)
    (hnew : thread ∉ s.threadAllList) :
    threadStart thread prio s = .ok (started thread prio s) := by
  have hr : decide (thread ∉ s.threadReadyList) = true := decide_eq_true hready
  have ha : decide (thread ∉ s.threadAllList) = true := decide_eq_true hnew
  have h0 : decide (thread ≠ 0) = true := decide_eq_true hnull
  simp only [threadStart, initThread]
  rw [assert_of h0]
  simp only [ok_bind, if_neg hmain, pure, Except.pure, setTask]
  rw [assert_of hr]
  simp only [ok_bind]
  rw [assert_of ha]
  rfl

theorem nodup_append_singleton {l : List Nat} {t : Nat} (h : l.Nodup) (ht : t ∉ l) :
    (l ++ [t]).Nodup := by
  refine List.nodup_append.mpr ⟨h, by simp, ?_⟩
  rintro a ha b hb rfl
  exact ht (List.mem_singleton.mp hb ▸ ha)

/-- `thread_start` on a page that is no thread's PCB succeeds and keeps the invariant. -/
theorem threadStart_ok {s : Sched} (h : s.Inv) {thread : Nat} (prio : Nat)
    (hnew : thread ∉ s.threadAllList) (hnull : thread ≠ 0) :
    threadStart thread prio s = .ok (started thread prio s) ∧ (started thread prio s).Inv := by
  have hmain : thread ≠ s.mainThread := fun heq => hnew (heq ▸ h.main_mem)
  have hready : thread ∉ s.threadReadyList := fun mem => hnew ((h.ready_iff _).mp mem).1
  have hrun : s.runningThread ≠ thread := fun heq => hnew (heq ▸ h.running_mem)
  have hmem : ∀ t, t ∈ (started thread prio s).threadAllList ↔
      t ∈ s.threadAllList ∨ t = thread := by
    intro t
    show t ∈ s.threadAllList ++ [thread] ↔ _
    simp
  have hold : ∀ t, t ∈ (started thread prio s).threadAllList → t ≠ thread →
      t ∈ s.threadAllList := fun t ht hne => ((hmem t).mp ht).resolve_right hne
  refine ⟨threadStart_eq prio hnull hmain hready hnew,
    ⟨nodup_append_singleton h.allNodup hnew, (hmem _).mpr (.inl h.running_mem),
      (hmem _).mpr (.inl h.idle_mem), (hmem _).mpr (.inl h.main_mem),
      nodup_append_singleton h.readyNodup hready, ?_, ?_, ?_, ?_⟩, ?_⟩
  · intro t
    show t ∈ s.threadReadyList ++ [thread] ↔ _
    rw [List.mem_append, List.mem_singleton, h.ready_iff, hmem, started_status]
    by_cases ht : t = thread
    · simp [ht]
    · simp [ht]
  · intro t ht
    rw [started_status]
    split
    · intro h'; exact absurd h' (by decide)
    · next hne => exact h.runing t (hold t ht hne)
  · intro t ht
    rw [started_status]
    split
    · decide
    · next hne => exact h.alive t (hold t ht hne)
  · intro t ht
    rw [started_magic]
    split
    · rfl
    · next hne => exact h.magic t (hold t ht hne)
  · exact (started_status _ _ _ _).trans ((if_neg hrun).trans h.current)

/-- `s` after `make_main_thread`, from empty lists. -/
def mainMade (s : Sched) : Sched :=
  { (({ s with
      threadReadyList := []
      threadAllList := []
      mainThread := s.runningThread
      nextPid := (s.nextPid + 1) % 2 ^ 16 } : Sched).setTask
      s.runningThread { newTask 31 s with status := .runing }) with
    threadAllList := [s.runningThread] }

theorem makeMainThread_eq {s : Sched} (hmain : s.runningThread ≠ 0) :
    makeMainThread { s with threadReadyList := [], threadAllList := [] } = .ok (mainMade s) := by
  have h0 : decide (s.runningThread ≠ 0) = true := decide_eq_true hmain
  simp only [makeMainThread, initThread]
  rw [assert_of h0]
  simp only [ok_bind, if_true, pure, Except.pure, setTask, List.not_mem_nil, not_false_eq_true,
    decide_true, assert_true]
  rfl

theorem mainMade_status (s : Sched) (t : Nat) :
    (mainMade s).status t = if t = s.runningThread then .runing else s.status t :=
  status_setTask _ s.runningThread t _

theorem mainMade_magic (s : Sched) (t : Nat) : ((mainMade s).task t).stackMagic =
    if t = s.runningThread then 0x19870916 else (s.task t).stackMagic := by
  refine (congrArg TaskStruct.stackMagic (task_setTask _ s.runningThread t _)).trans ?_
  split <;> rfl

theorem inv_started_mainMade {s : Sched} {idlePage : Nat} (hne : idlePage ≠ s.runningThread) :
    Sched.Inv { started idlePage 10 (mainMade s) with idleThread := idlePage } := by
  have hst : ∀ t, (started idlePage 10 (mainMade s)).status t =
      if t = idlePage then .ready else if t = s.runningThread then .runing else s.status t := by
    intro t
    rw [started_status, mainMade_status]
  have hlist : ∀ t, t ∈ [s.runningThread, idlePage] ↔ t = s.runningThread ∨ t = idlePage := by
    simp
  refine ⟨⟨?_, ?_, ?_, ?_, ?_, ?_, ?_, ?_, ?_⟩, ?_⟩
  · show [s.runningThread, idlePage].Nodup
    simpa using hne.symm
  · exact (hlist _).mpr (.inl rfl)
  · exact (hlist _).mpr (.inr rfl)
  · exact (hlist _).mpr (.inl rfl)
  · show [idlePage].Nodup
    simp
  · intro t
    show t ∈ [idlePage] ↔ t ∈ [s.runningThread, idlePage] ∧
      (started idlePage 10 (mainMade s)).status t = .ready
    rw [hst, List.mem_singleton, hlist]
    by_cases ht : t = idlePage
    · simp [ht]
    · by_cases hr : t = s.runningThread
      · simp [hr, hne.symm]
      · simp [ht, hr]
  · intro t ht hr
    change (started idlePage 10 (mainMade s)).status t = .runing at hr
    rw [hst] at hr
    rcases (hlist t).mp ht with h' | h'
    · exact h'
    · rw [if_pos h'] at hr
      exact absurd hr (by decide)
  · intro t ht
    change (started idlePage 10 (mainMade s)).status t ≠ .died
    rw [hst]
    rcases (hlist t).mp ht with h' | h'
    · subst h'; simp [hne.symm]
    · simp [h']
  · intro t ht
    change ((started idlePage 10 (mainMade s)).task t).stackMagic = _
    rw [started_magic, mainMade_magic]
    rcases (hlist t).mp ht with h' | h'
    · simp [h']
    · simp [h']
  · change (started idlePage 10 (mainMade s)).status s.runningThread = .runing
    rw [hst, if_neg hne.symm, if_pos rfl]

/-- `thread_init` succeeds and leaves the main thread running and the idle thread ready. -/
theorem threadInit_ok {s : Sched} {idlePage : Nat} (hidle : idlePage ≠ 0)
    (hmain : s.runningThread ≠ 0) (hne : idlePage ≠ s.runningThread) :
    ∃ s', threadInit idlePage s = .ok s' ∧ s'.Inv ∧
      s'.threadAllList = [s.runningThread, idlePage] ∧ s'.threadReadyList = [idlePage] ∧
      s'.runningThread = s.runningThread ∧ s'.idleThread = idlePage := by
  have hstart : threadStart idlePage 10 (mainMade s) = .ok (started idlePage 10 (mainMade s)) :=
    threadStart_eq 10 hidle hne (by simp [mainMade, setTask]) (by simpa [mainMade] using hne)
  refine ⟨{ started idlePage 10 (mainMade s) with idleThread := idlePage }, ?_,
    inv_started_mainMade hne, rfl, rfl, rfl, rfl⟩
  simp only [threadInit, makeMainThread_eq hmain, ok_bind, hstart]
  rfl

end OriginOS
