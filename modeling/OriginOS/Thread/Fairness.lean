import Mathlib.Algebra.GroupWithZero.Nat
import Mathlib.Algebra.Order.BigOperators.Group.List
import Mathlib.Algebra.Order.Group.Nat
import OriginOS.Thread.SchedRuns

/-! How long a ready thread waits. The ready list is a queue, except that `thread_unblock` puts a
thread at its front, so threads can overtake. But a thread that is behind another one stays behind
it, and a thread gets fresh ticks only when it goes to the end of the list. -/

namespace OriginOS

open Lib Sched

/-- What the timer interrupt reads of a PCB: the ticks before the one at which the thread is
switched out, and the number of ticks that it starts with. -/
structure Slice where
  ticks : Nat
  priority : Nat

namespace Sched

def slice (s : Sched) (u : Nat) : Slice := ⟨(s.task u).ticks, (s.task u).priority⟩

/-- The ready list from `t` on: `t` and the threads behind it. -/
def late (s : Sched) (t : Nat) : List Nat := s.threadReadyList.dropWhile (· ≠ t)

theorem slice_setTask (s : Sched) (t u : Nat) (task : TaskStruct) :
    (s.setTask t task).slice u = if u = t then ⟨task.ticks, task.priority⟩ else s.slice u := by
  rw [slice, task_setTask]
  split <;> rfl

theorem slice_setStatus (s : Sched) (t u : Nat) (st : TaskStatus) :
    (s.setStatus t st).slice u = s.slice u := by
  rw [setStatus, slice_setTask]
  split
  · next h => rw [h]; rfl
  · rfl

end Sched

/-! ### The queue behind a thread -/

section Late

variable {s : Sched} {t x : Nat} {l : List Nat}

theorem dropWhile_append_of_mem (h : t ∈ l) (l' : List Nat) :
    (l ++ l').dropWhile (· ≠ t) = l.dropWhile (· ≠ t) ++ l' := by
  induction l with
  | nil => exact absurd h List.not_mem_nil
  | cons x l ih =>
    by_cases hx : x = t
    · subst hx
      simp
    · have ht : t ∈ l := (List.mem_cons.mp h).resolve_left (Ne.symm hx)
      rw [List.cons_append, List.dropWhile_cons_of_pos (by simpa using hx),
        List.dropWhile_cons_of_pos (by simpa using hx), ih ht]

theorem dropWhile_cons_ne (h : x ≠ t) (l : List Nat) :
    (x :: l).dropWhile (· ≠ t) = l.dropWhile (· ≠ t) :=
  List.dropWhile_cons_of_pos (by simpa using h)

theorem Sched.late_subset (s : Sched) (t : Nat) : ∀ u ∈ s.late t, u ∈ s.threadReadyList :=
  fun _ hu => (List.dropWhile_sublist _).subset hu

theorem Sched.Inv.running_not_late (h : s.Inv) (t : Nat) : s.runningThread ∉ s.late t :=
  fun hmem => h.running_not_ready (late_subset s t _ hmem)

end Late

/-- What an operation does while `t` waits: nobody behind `t` gets away from there, and a thread
that is not behind `t` has no more ticks left than before. -/
structure KeepsWaiting (t : Nat) (s s' : Sched) : Prop where
  late : ∀ u ∈ s.late t, u ∈ s'.late t
  ticks : ∀ u ∈ s.threadAllList, u ∉ s'.late t → (s'.slice u).ticks ≤ (s.slice u).ticks

/-- What an operation does to the slices: no thread gets more ticks than it had or than it starts
with. -/
structure KeepsSlices (s s' : Sched) : Prop where
  all : ∀ u ∈ s.threadAllList, u ∈ s'.threadAllList
  priority : ∀ u ∈ s.threadAllList, (s'.slice u).priority = (s.slice u).priority
  ticks : ∀ u ∈ s.threadAllList, (s'.slice u).ticks ≤ (s.slice u).ticks ∨
    (s'.slice u).ticks ≤ (s.slice u).priority
  new : ∀ u ∈ s'.threadAllList, u ∉ s.threadAllList → (s'.slice u).ticks ≤ (s'.slice u).priority

theorem KeepsWaiting.of_append {t : Nat} {s s' : Sched} {l : List Nat}
    (hlate : s'.late t = s.late t ++ l)
    (hslice : ∀ u ∈ s.threadAllList, u ∉ l → s'.slice u = s.slice u) : KeepsWaiting t s s' := by
  refine ⟨fun u hu => ?_, fun u hu hnot => ?_⟩
  · rw [hlate]
    exact List.mem_append_left _ hu
  · rw [hlate, List.mem_append, not_or] at hnot
    rw [hslice u hu hnot.2]

theorem KeepsWaiting.of_eq {t : Nat} {s s' : Sched} (hlate : s'.late t = s.late t)
    (hslice : ∀ u, s'.slice u = s.slice u) : KeepsWaiting t s s' :=
  .of_append (hlate.trans (List.append_nil _).symm) fun u _ _ => hslice u

theorem KeepsSlices.of_eq {s s' : Sched} (hall : s'.threadAllList = s.threadAllList)
    (hslice : ∀ u, s'.slice u = s.slice u) : KeepsSlices s s' :=
  ⟨fun u hu => hall ▸ hu, fun u _ => by rw [hslice], fun u _ => .inl (by rw [hslice]),
    fun u hu hnew => absurd (hall ▸ hu) hnew⟩

theorem KeepsSlices.trans {s s' s'' : Sched} (h : KeepsSlices s s') (h' : KeepsSlices s' s'') :
    KeepsSlices s s'' := by
  refine ⟨fun u hu => h'.all u (h.all u hu), fun u hu => ?_, fun u hu => ?_, fun u hu hnew => ?_⟩
  · rw [h'.priority u (h.all u hu), h.priority u hu]
  · have hpriority := h.priority u hu
    rcases h'.ticks u (h.all u hu) with hle' | hle'
    · rcases h.ticks u hu with hle | hle <;> omega
    · omega
  · by_cases hmem : u ∈ s'.threadAllList
    · have hticks := h.new u hmem hnew
      have hpriority := h'.priority u hmem
      rcases h'.ticks u hmem with hle | hle <;> omega
    · exact h'.new u hu hmem

theorem KeepsSlices.after {s s' s'' : Sched} (h : KeepsSlices s' s'')
    (hall : s'.threadAllList = s.threadAllList) (hslice : ∀ u, s'.slice u = s.slice u) :
    KeepsSlices s s'' :=
  (KeepsSlices.of_eq hall hslice).trans h

/-! ### The switch -/

section Switch

variable {s : Sched} {next t : Nat} {rest : List Nat}

theorem schedule_eq_runing (h : s.Inv) (hi : s.intrStatus = .off)
    (hl : s.threadReadyList ++ [s.runningThread] = next :: rest) :
    schedule s = .ok (switched next rest (requeued s)) := by
  have hl' : (requeued s).threadReadyList = next :: rest := hl
  have hne : (requeued s).threadReadyList ≠ [] := by
    rw [hl']
    exact List.cons_ne_nil _ _
  simp only [schedule, hi, decide_true, assert_true, ok_bind, scheduleRequeue_runing h,
    if_neg hne, scheduleNext_cons hl', pure, Except.pure]

theorem schedule_eq_not (hi : s.intrStatus = .off) (hc : s.status s.runningThread ≠ .runing)
    (hl : s.threadReadyList = next :: rest) : schedule s = .ok (switched next rest s) := by
  have hne : s.threadReadyList ≠ [] := by
    rw [hl]
    exact List.cons_ne_nil _ _
  simp only [schedule, hi, decide_true, assert_true, ok_bind, scheduleRequeue_not hc,
    if_neg hne, scheduleNext_cons hl, pure, Except.pure]

theorem slice_switched (next : Nat) (rest : List Nat) (s : Sched) (u : Nat) :
    (switched next rest s).slice u = s.slice u :=
  slice_setStatus { s with threadReadyList := rest } next u .runing

theorem late_switched (hl : s.threadReadyList = next :: rest)
    (ht : t ∈ (switched next rest s).threadReadyList) (hnodup : s.threadReadyList.Nodup) :
    (switched next rest s).late t = s.late t := by
  have hmem : t ∈ rest := ht
  rw [hl, List.nodup_cons] at hnodup
  have hne : next ≠ t := fun h => hnodup.1 (h ▸ hmem)
  rw [late, late, hl, dropWhile_cons_ne hne]
  rfl

theorem slice_requeued (s : Sched) (u : Nat) : (requeued s).slice u =
    if u = s.runningThread then ⟨(s.slice u).priority, (s.slice u).priority⟩ else s.slice u := by
  refine (slice_setTask _ s.runningThread u _).trans ?_
  split
  · next h => rw [h]; rfl
  · rfl

theorem threadUnblock_keepsSlices {pthread : Nat} {s' : Sched}
    (h : threadUnblock pthread s = .ok s') : KeepsSlices s s' := by
  simp only [threadUnblock] at h
  obtain ⟨-, -, h⟩ := bind_eq_ok.mp h
  split at h
  · obtain ⟨-, -, h⟩ := bind_eq_ok.mp h
    split at h
    · cases h
    · cases h
      exact .of_eq rfl fun u => slice_setStatus _ pthread u .ready
  · cases h
    exact .of_eq rfl fun u => rfl

theorem scheduleRequeue_keepsSlices {s' : Sched} (h : scheduleRequeue s = .ok s') :
    KeepsSlices s s' := by
  simp only [scheduleRequeue] at h
  split at h
  · obtain ⟨-, -, h⟩ := bind_eq_ok.mp h
    obtain rfl : requeued s = s' := Except.ok.inj h
    refine ⟨fun _ hu => hu, fun u _ => ?_, fun u _ => ?_, fun u hu hnew => absurd hu hnew⟩
    · rw [slice_requeued]
      split <;> rfl
    · rw [slice_requeued]
      split
      · exact .inr (Nat.le_refl _)
      · exact .inl (Nat.le_refl _)
  · cases h
    exact .of_eq rfl fun u => rfl

theorem scheduleNext_keepsSlices {s' : Sched} (h : scheduleNext s = .ok s') :
    KeepsSlices s s' := by
  unfold scheduleNext at h
  split at h
  · cases h
  · next next rest _ =>
    cases h
    exact .of_eq rfl fun u => slice_switched next rest s u

theorem schedule_keepsSlices {s' : Sched} (h : schedule s = .ok s') : KeepsSlices s s' := by
  simp only [schedule] at h
  obtain ⟨-, -, h⟩ := bind_eq_ok.mp h
  obtain ⟨mid, hmid, h⟩ := bind_eq_ok.mp h
  refine (scheduleRequeue_keepsSlices hmid).trans ?_
  split at h
  · obtain ⟨woken, hwoken, h⟩ := bind_eq_ok.mp h
    exact (threadUnblock_keepsSlices hwoken).trans (scheduleNext_keepsSlices h)
  · exact scheduleNext_keepsSlices h

end Switch

/-! ### The timer interrupt -/

section Timer

variable {s s' : Sched}

/-- The state in which `intr_timer_handler` looks at the ticks of the running thread. -/
def counted (s : Sched) : Sched :=
  let s := intrDisable (s.saveIntr s.intrStatus)
  let task := s.task s.runningThread
  { s.setTask s.runningThread { task with elapsedTicks := (task.elapsedTicks + 1) % 2 ^ 32 } with
    ticks := (s.ticks + 1) % 2 ^ 32 }

/-- The state after a tick that leaves the running thread the processor. -/
def ticked (s : Sched) : Sched :=
  let s := counted s
  intrSetStatus (s.resume s.runningThread) (s.setTask s.runningThread
    { s.task s.runningThread with ticks := (s.slice s.runningThread).ticks - 1 })

theorem slice_counted (s : Sched) (u : Nat) : (counted s).slice u = s.slice u := by
  refine (slice_setTask _ s.runningThread u _).trans ?_
  split
  · next h => rw [h]; rfl
  · rfl

theorem slice_ticked (s : Sched) (u : Nat) : (ticked s).slice u =
    if u = s.runningThread then ⟨(s.slice u).ticks - 1, (s.slice u).priority⟩ else s.slice u := by
  refine (slice_setTask (counted s) s.runningThread u _).trans ?_
  rw [← slice_counted s u]
  split
  · next h => rw [h]; rfl
  · rfl

theorem intrTimerHandler_cases (h : intrTimerHandler s = .ok s') :
    (s.slice s.runningThread).ticks = 0 ∧ schedule (counted s) = .ok s' ∨
      (s.slice s.runningThread).ticks ≠ 0 ∧ ticked s = s' := by
  simp only [intrTimerHandler] at h
  obtain ⟨-, -, h⟩ := bind_eq_ok.mp h
  split at h
  · next hz => exact .inl ⟨hz, h⟩
  · next hz =>
    refine .inr ⟨hz, ?_⟩
    have htick := slice_counted s s.runningThread
    rw [← Except.ok.inj h, ticked]
    simp only
    rw [show (counted s).runningThread = s.runningThread from rfl, htick]
    rfl

theorem intrTimerHandler_keepsSlices (h : intrTimerHandler s = .ok s') : KeepsSlices s s' := by
  rcases intrTimerHandler_cases h with ⟨-, hsched⟩ | ⟨-, rfl⟩
  · exact (schedule_keepsSlices hsched).after rfl (slice_counted s)
  · refine ⟨fun _ hu => hu, fun u _ => ?_, fun u _ => .inl ?_, fun u hu hnew => absurd hu hnew⟩
    · rw [slice_ticked]
      split <;> rfl
    · rw [slice_ticked]
      split
      · exact Nat.sub_le _ _
      · exact Nat.le_refl _

end Timer

/-! ### Every operation keeps the slices -/

section Operations

variable {s s' : Sched}

theorem threadYield_cases (h : threadYield s = .ok s') :
    schedule ({ intrDisable (s.saveIntr s.intrStatus) with
      threadReadyList := s.threadReadyList ++ [s.runningThread] }.setStatus
        s.runningThread .ready) = .ok s' := by
  simp only [threadYield] at h
  obtain ⟨-, -, h⟩ := bind_eq_ok.mp h
  exact h

theorem threadBlock_cases {stat : TaskStatus} (h : threadBlock stat s = .ok s') :
    schedule ((intrDisable (s.saveIntr s.intrStatus)).setStatus s.runningThread stat) =
      .ok s' := by
  simp only [threadBlock] at h
  obtain ⟨-, -, h⟩ := bind_eq_ok.mp h
  exact h

theorem threadYield_keepsSlices (h : threadYield s = .ok s') : KeepsSlices s s' :=
  (schedule_keepsSlices (threadYield_cases h)).after rfl fun u =>
    slice_setStatus _ s.runningThread u .ready

theorem threadBlock_keepsSlices {stat : TaskStatus} (h : threadBlock stat s = .ok s') :
    KeepsSlices s s' :=
  (schedule_keepsSlices (threadBlock_cases h)).after rfl fun u =>
    slice_setStatus _ s.runningThread u stat

theorem slice_started (thread prio u : Nat) (s : Sched) : (started thread prio s).slice u =
    if u = thread then ⟨prio % 2 ^ 8, prio % 2 ^ 8⟩ else s.slice u :=
  slice_setTask _ thread u (newTask prio s)

theorem started_keepsSlices {thread : Nat} (prio : Nat) (hnew : thread ∉ s.threadAllList) :
    KeepsSlices s (started thread prio s) := by
  have hne : ∀ u ∈ s.threadAllList, u ≠ thread := fun u hu heq => hnew (heq ▸ hu)
  refine ⟨fun u hu => List.mem_append_left _ hu, fun u hu => ?_, fun u hu => .inl ?_,
    fun u hu hnot => ?_⟩
  · rw [slice_started, if_neg (hne u hu)]
  · rw [slice_started, if_neg (hne u hu)]
  · have hu : u ∈ s.threadAllList ++ [thread] := hu
    rw [List.mem_append, List.mem_singleton] at hu
    rw [slice_started, if_pos (hu.resolve_left hnot)]

end Operations

/-! ### What happens while a thread waits -/

section Waiting

variable {s s' : Sched} {t : Nat}

theorem late_append {l : List Nat} (hready : s'.threadReadyList = s.threadReadyList ++ l)
    (ht : t ∈ s.threadReadyList) : s'.late t = s.late t ++ l := by
  rw [late, hready, dropWhile_append_of_mem ht]
  rfl

theorem schedule_waits (hi : s.intrStatus = .off) (hc : s.status s.runningThread ≠ .runing)
    (hnodup : s.threadReadyList.Nodup) (ht : t ∈ s.threadReadyList) (h : schedule s = .ok s')
    (ht' : t ∈ s'.threadReadyList) : s'.late t = s.late t ∧ ∀ u, s'.slice u = s.slice u := by
  obtain ⟨next, rest, hl⟩ := List.exists_cons_of_ne_nil (List.ne_nil_of_mem ht)
  obtain rfl : switched next rest s = s' :=
    Except.ok.inj ((schedule_eq_not hi hc hl).symm.trans h)
  exact ⟨late_switched hl ht' hnodup, slice_switched next rest s⟩

theorem counted_inv (h : s.Inv) : (counted s).Inv := by
  have hentry : (intrDisable (s.saveIntr s.intrStatus)).Inv :=
    ⟨(h.toConsistent.saveIntr s.intrStatus).intr .off, h.current⟩
  have hset := hentry.setTask { s.task s.runningThread with
    elapsedTicks := ((s.task s.runningThread).elapsedTicks + 1) % 2 ^ 32 } h.current
    (h.magic _ h.running_mem)
  exact ⟨⟨hset.allNodup, hset.running_mem, hset.idle_mem, hset.main_mem, hset.readyNodup,
    hset.ready_iff, hset.runing, hset.alive, hset.magic⟩, hset.current⟩

/-- A tick costs a thread that is not behind `t`: it has one tick less, or goes to the end. -/
theorem intrTimerHandler_waits (h : s.Inv) (heq : intrTimerHandler s = .ok s')
    (ht : t ∈ s.threadReadyList) (ht' : t ∈ s'.threadReadyList) :
    KeepsWaiting t s s' ∧ (s.runningThread ∈ s'.late t ∨
      (s'.slice s.runningThread).ticks < (s.slice s.runningThread).ticks) := by
  rcases intrTimerHandler_cases heq with ⟨-, hsched⟩ | ⟨hne, rfl⟩
  · have hinv := counted_inv h
    obtain ⟨next, rest, hl⟩ : ∃ next rest,
        (counted s).threadReadyList ++ [s.runningThread] = next :: rest :=
      List.exists_cons_of_ne_nil (List.concat_ne_nil _ _)
    obtain rfl : switched next rest (requeued (counted s)) = s' :=
      Except.ok.inj ((schedule_eq_runing hinv rfl hl).symm.trans hsched)
    have hlate : (switched next rest (requeued (counted s))).late t =
        s.late t ++ [s.runningThread] := by
      rw [late_switched hl ht' (requeued_consistent hinv).readyNodup]
      exact late_append (s := counted s) rfl ht
    refine ⟨.of_append hlate fun u _ hu => ?_, .inl ?_⟩
    · rw [slice_switched, slice_requeued, if_neg, slice_counted]
      exact fun heq => hu (List.mem_singleton.mpr heq)
    · rw [hlate]
      exact List.mem_append_right _ (List.mem_singleton.mpr rfl)
  · refine ⟨⟨fun u hu => hu, fun u _ _ => ?_⟩, .inr ?_⟩
    · rw [slice_ticked]
      split
      · exact Nat.sub_le _ _
      · exact Nat.le_refl _
    · rw [slice_ticked, if_pos rfl]
      exact Nat.sub_one_lt hne

theorem threadYield_waits (h : s.Inv) (heq : threadYield s = .ok s') (ht : t ∈ s.threadReadyList)
    (ht' : t ∈ s'.threadReadyList) : KeepsWaiting t s s' := by
  let mid : Sched := ({ intrDisable (s.saveIntr s.intrStatus) with
    threadReadyList := s.threadReadyList ++ [s.runningThread] }).setStatus s.runningThread .ready
  have hst : mid.status s.runningThread = .ready :=
    (status_setStatus _ s.runningThread s.runningThread .ready).trans (if_pos rfl)
  obtain ⟨hlate, hslice⟩ := schedule_waits (s := mid) rfl (by
    show mid.status s.runningThread ≠ _
    rw [hst]
    decide) (nodup_append_singleton h.readyNodup h.running_not_ready)
    (List.mem_append_left _ ht) (threadYield_cases heq) ht'
  refine .of_append (hlate.trans (late_append (s := s) rfl ht)) fun u _ _ => ?_
  rw [hslice]
  exact slice_setStatus _ s.runningThread u .ready

theorem threadBlock_waits (h : s.Inv) {stat : TaskStatus} (hb : stat.isBlocked = true)
    (heq : threadBlock stat s = .ok s') (ht : t ∈ s.threadReadyList)
    (ht' : t ∈ s'.threadReadyList) : KeepsWaiting t s s' := by
  let mid : Sched := (intrDisable (s.saveIntr s.intrStatus)).setStatus s.runningThread stat
  have hst : mid.status s.runningThread = stat :=
    (status_setStatus _ s.runningThread s.runningThread stat).trans (if_pos rfl)
  obtain ⟨hlate, hslice⟩ := schedule_waits (s := mid) rfl (by
    show mid.status s.runningThread ≠ _
    rw [hst]
    exact isBlocked_ne_runing hb) h.readyNodup ht (threadBlock_cases heq) ht'
  refine .of_eq hlate fun u => ?_
  rw [hslice]
  exact slice_setStatus _ s.runningThread u stat

theorem unblocked_waits (h : s.Inv) {u : Nat} (hu : (s.status u).isBlocked = true)
    (ht : t ∈ s.threadReadyList) : KeepsWaiting t s (unblocked u s) := by
  have hne : u ≠ t := by
    rintro rfl
    exact isBlocked_ne_ready hu ((h.ready_iff u).mp ht).2
  exact .of_eq (dropWhile_cons_ne hne _) fun v => slice_setStatus _ u v .ready

theorem started_waits {thread : Nat} (prio : Nat) (hnew : thread ∉ s.threadAllList)
    (ht : t ∈ s.threadReadyList) : KeepsWaiting t s (started thread prio s) := by
  refine .of_append (late_append rfl ht) fun u hu _ => ?_
  rw [slice_started, if_neg]
  exact fun heq => hnew (heq ▸ hu)

end Waiting

/-! ### Whole runs -/

theorem SchedAct.exec_keepsSlices {s s' : SchedState} (h : s.Inv) {a : SchedAct}
    (ha : a.Enabled s) (heq : a.exec s = .ok s') : KeepsSlices s.sched s'.sched := by
  cases a with
  | tick =>
    obtain ⟨k, hk, hok⟩ := bind_eq_ok.mp heq
    cases hok
    exact intrTimerHandler_keepsSlices hk
  | yield =>
    obtain ⟨k, hk, hok⟩ := bind_eq_ok.mp heq
    cases hok
    exact threadYield_keepsSlices hk
  | block stat =>
    obtain ⟨k, hk, hok⟩ := bind_eq_ok.mp heq
    cases hok
    exact threadBlock_keepsSlices hk
  | unblock t =>
    obtain ⟨k, hk, hok⟩ := bind_eq_ok.mp heq
    cases hok
    exact threadUnblock_keepsSlices hk
  | start thread prio =>
    obtain ⟨k, hk, hok⟩ := bind_eq_ok.mp heq
    cases hok
    have hnew : thread ∉ s.sched.threadAllList := h.all ▸ ha.2
    obtain rfl : started thread prio s.sched = k :=
      Except.ok.inj ((threadStart_ok h.inv prio hnew ha.1).1.symm.trans hk)
    exact started_keepsSlices prio hnew
  | idleBlock =>
    obtain ⟨k, hk, hok⟩ := bind_eq_ok.mp heq
    cases hok
    exact threadBlock_keepsSlices hk
  | idleHlt =>
    cases heq
    exact .of_eq rfl fun _ => rfl
  | intr status =>
    cases heq
    exact .of_eq rfl fun _ => rfl

/-- No thread has more ticks left than its priority. -/
def SchedState.Sliced (s : SchedState) : Prop :=
  ∀ u ∈ s.sched.threadAllList, (s.sched.slice u).ticks ≤ (s.sched.slice u).priority

theorem KeepsSlices.sliced {s s' : SchedState} (h : KeepsSlices s.sched s'.sched)
    (hs : s.Sliced) : s'.Sliced := by
  intro u hu
  by_cases hold : u ∈ s.sched.threadAllList
  · have hle := hs u hold
    have hpriority := h.priority u hold
    rcases h.ticks u hold with hticks | hticks <;> omega
  · exact h.new u hu hold

theorem threadInit_sliced {boot : Sched} {idlePage : Nat} (h0 : idlePage ≠ 0)
    (hmain : boot.runningThread ≠ 0) (hne : idlePage ≠ boot.runningThread) {s : SchedState}
    (heq : threadInit idlePage boot = .ok s.sched) : s.Sliced := by
  have hstart : threadStart idlePage 10 (mainMade boot) =
      .ok (started idlePage 10 (mainMade boot)) :=
    threadStart_eq 10 h0 hne (by simp [mainMade, setTask]) (by simpa [mainMade] using hne)
  simp only [threadInit, makeMainThread_eq hmain, ok_bind, hstart] at heq
  have hslice : ∀ u, s.sched.slice u = if u = idlePage then ⟨10, 10⟩
      else if u = boot.runningThread then ⟨31, 31⟩ else boot.slice u := by
    intro u
    rw [← Except.ok.inj heq]
    refine (slice_started idlePage 10 u (mainMade boot)).trans ?_
    split
    · rfl
    · exact slice_setTask _ boot.runningThread u _
  intro u hu
  rw [← Except.ok.inj heq] at hu
  have hu : u ∈ [boot.runningThread, idlePage] := hu
  rw [hslice]
  split
  · exact Nat.le_refl _
  · next hidle =>
    rw [if_pos ((List.mem_pair.mp hu).resolve_right hidle)]

theorem schedSystem_sliced {s : SchedState} (h : schedSystem.Reachable s) : s.Sliced := by
  have hboth : s.Inv ∧ s.Sliced := by
    refine h.invariant (I := fun s => s.Inv ∧ s.Sliced) (fun s hi => ?_) fun s a s' hs hstep => ?_
    · refine ⟨schedSystem_inv (.init hi), ?_⟩
      obtain ⟨boot, idlePage, h0, hmain, hne, heq, -⟩ := hi
      exact threadInit_sliced h0 hmain hne heq
    · obtain ⟨t, heq, ht⟩ := SchedAct.exec_inv hs.1 hstep.1
      refine ⟨hstep.eq_of_ok heq ▸ ht, ?_⟩
      exact (SchedAct.exec_keepsSlices hs.1 hstep.1 hstep.2).sliced hs.2
  exact hboth.2

/-- The part of the waiting time of `t` that thread `u` accounts for. -/
def Sched.weight (s : Sched) (t u : Nat) : Nat :=
  if u ∈ s.late t then 0 else (s.slice u).ticks + 1

def Sched.waiting (s : Sched) (t : Nat) : Nat := (s.threadAllList.map (s.weight t)).sum

section Waiting

variable {s s' : Sched} {t : Nat}

theorem KeepsWaiting.weight_le (h : KeepsWaiting t s s') {u : Nat} (hu : u ∈ s.threadAllList) :
    s'.weight t u ≤ s.weight t u := by
  unfold Sched.weight
  by_cases hlate : u ∈ s'.late t
  · rw [if_pos hlate]
    exact Nat.zero_le _
  · rw [if_neg hlate, if_neg fun hold => hlate (h.late u hold)]
    exact Nat.succ_le_succ (h.ticks u hu hlate)

theorem sum_weight_new {l : List Nat} (hall : s'.threadAllList = s.threadAllList ++ l)
    (hnew : ∀ u ∈ l, u ∈ s'.late t) :
    s'.waiting t = (s.threadAllList.map (s'.weight t)).sum := by
  have hzero : (l.map (s'.weight t)).sum = 0 := by
    rw [List.sum_eq_zero_iff]
    intro w hw
    obtain ⟨u, hu, rfl⟩ := List.mem_map.mp hw
    exact if_pos (hnew u hu)
  rw [Sched.waiting, hall, List.map_append, List.sum_append, hzero, Nat.add_zero]

theorem KeepsWaiting.waiting_le (h : KeepsWaiting t s s') {l : List Nat}
    (hall : s'.threadAllList = s.threadAllList ++ l) (hnew : ∀ u ∈ l, u ∈ s'.late t) :
    s'.waiting t ≤ s.waiting t := by
  rw [sum_weight_new hall hnew]
  exact List.sum_le_sum fun u hu => h.weight_le hu

theorem KeepsWaiting.waiting_lt (h : KeepsWaiting t s s')
    (hall : s'.threadAllList = s.threadAllList) {c : Nat}
    (hc : c ∈ s.threadAllList) (hlt : s'.weight t c < s.weight t c) :
    s'.waiting t < s.waiting t := by
  rw [Sched.waiting, Sched.waiting, hall]
  exact List.sum_lt_sum _ _ (fun u hu => h.weight_le hu) ⟨c, hc, hlt⟩

end Waiting

theorem SchedAct.exec_waiting {s s' : SchedState} (h : s.Inv) {a : SchedAct} (ha : a.Enabled s)
    (heq : a.exec s = .ok s') {t : Nat} (ht : t ∈ s.sched.threadReadyList)
    (ht' : t ∈ s'.sched.threadReadyList) :
    s'.sched.waiting t + (a == .tick).toNat ≤ s.sched.waiting t := by
  have hsame {k : Sched} (hw : KeepsWaiting t s.sched k)
      (hall : k.threadAllList = s.sched.threadAllList) : k.waiting t ≤ s.sched.waiting t :=
    hw.waiting_le (l := []) (hall.trans (List.append_nil _).symm) (by simp)
  cases a with
  | tick =>
    obtain ⟨k, hk, hok⟩ := bind_eq_ok.mp heq
    cases hok
    obtain ⟨hwaits, hcur⟩ := intrTimerHandler_waits h.inv hk ht ht'
    obtain ⟨k', hk', hpassed⟩ := intrTimerHandler_ok h.inv
    obtain rfl : k = k' := Except.ok.inj (hk.symm.trans hk')
    refine Nat.succ_le_of_lt (hwaits.waiting_lt hpassed.all h.inv.running_mem ?_)
    unfold Sched.weight
    rw [if_neg (h.inv.running_not_late t)]
    rcases hcur with hlate | hlt
    · rw [if_pos hlate]
      exact Nat.succ_pos _
    · split
      · exact Nat.succ_pos _
      · exact Nat.succ_lt_succ hlt
  | yield =>
    obtain ⟨k, hk, hok⟩ := bind_eq_ok.mp heq
    cases hok
    obtain ⟨k', hk', hpassed⟩ := threadYield_ok h.inv
    obtain rfl : k = k' := Except.ok.inj (hk.symm.trans hk')
    exact hsame (threadYield_waits h.inv hk ht ht') hpassed.all
  | block stat =>
    obtain ⟨k, hk, hok⟩ := bind_eq_ok.mp heq
    cases hok
    obtain ⟨k', hk', hblocked⟩ := threadBlock_ok h.inv stat ha
    obtain rfl : k = k' := Except.ok.inj (hk.symm.trans hk')
    exact hsame (threadBlock_waits h.inv ha hk ht ht') hblocked.all
  | unblock u =>
    obtain ⟨k, hk, hok⟩ := bind_eq_ok.mp heq
    cases hok
    obtain rfl : unblocked u s.sched = k :=
      Except.ok.inj ((threadUnblock_ok h.inv.toConsistent ha.2).symm.trans hk)
    exact hsame (unblocked_waits h.inv ha.2 ht) rfl
  | start thread prio =>
    obtain ⟨k, hk, hok⟩ := bind_eq_ok.mp heq
    cases hok
    have hnew : thread ∉ s.sched.threadAllList := h.all ▸ ha.2
    obtain rfl : started thread prio s.sched = k :=
      Except.ok.inj ((threadStart_ok h.inv prio hnew ha.1).1.symm.trans hk)
    refine (started_waits prio hnew ht).waiting_le (l := [thread]) rfl fun u hu => ?_
    rw [late_append (s := s.sched) rfl ht]
    exact List.mem_append_right _ hu
  | idleBlock =>
    obtain ⟨k, hk, hok⟩ := bind_eq_ok.mp heq
    cases hok
    obtain ⟨k', hk', hblocked⟩ := threadBlock_ok h.inv .blocked rfl
    obtain rfl : k = k' := Except.ok.inj (hk.symm.trans hk')
    exact hsame (threadBlock_waits h.inv rfl hk ht ht') hblocked.all
  | idleHlt =>
    cases heq
    exact hsame (.of_eq rfl fun _ => rfl) rfl
  | intr status =>
    cases heq
    exact hsame (.of_eq rfl fun _ => rfl) rfl

/-- A ready thread `t` runs after a bounded number of timer ticks, whatever the threads do, how
often they unblock each other and how many are created: each thread that is not behind `t` in the
ready list can use up its ticks once. -/
theorem ready_thread_waits_bounded (s s' : SchedState) (hs : schedSystem.Reachable s) (t : Nat)
    (acts : List SchedAct)
    (path : schedSystem.Path (fun s => t ∈ s.sched.threadReadyList) s acts s') :
    acts.count .tick ≤ (s.created.map fun u =>
      if u ∈ s.sched.late t then 0 else (s.sched.task u).priority + 1).sum := by
  have hinv := schedSystem_inv hs
  have hcount : s'.sched.waiting t + acts.countP (· == .tick) ≤ s.sched.waiting t := by
    refine path.countP_le (I := SchedState.Inv) (μ := fun s => s.sched.waiting t)
      (fun s a s' h ht ht' hstep => ⟨?_, ?_⟩) hinv
    · obtain ⟨k, heq, hk⟩ := SchedAct.exec_inv h hstep.1
      exact hstep.eq_of_ok heq ▸ hk
    · exact SchedAct.exec_waiting h hstep.1 hstep.2 ht ht'
  have hbound : s.sched.waiting t ≤ (s.created.map fun u =>
      if u ∈ s.sched.late t then 0 else (s.sched.task u).priority + 1).sum := by
    rw [Sched.waiting, ← hinv.all]
    refine List.sum_le_sum fun u hu => ?_
    unfold Sched.weight
    split
    · exact Nat.le_refl _
    · exact Nat.succ_le_succ (schedSystem_sliced hs u hu)
  exact Nat.le_trans (Nat.le_trans (Nat.le_add_left _ _) hcount) hbound

/-- Thread `1` is ready behind the idle thread. -/
def oneStarted : SchedState := (schedSystem.replay [.start 1 5] bootState).getD bootState

/-- The main thread blocks, and is unblocked by the idle thread before thread `1` has run. -/
def overtaking : List SchedAct :=
  [.block .blocked, .tick, .unblock 0xc009e000, .idleBlock, .intr .on, .tick]

theorem ready_thread_waits_bounded_overtaking :
    overtaking.count .tick ≤ (oneStarted.created.map fun u =>
      if u ∈ oneStarted.sched.late 1 then 0 else (oneStarted.sched.task u).priority + 1).sum :=
  ready_thread_waits_bounded oneStarted _ (bootState_reachable.replay [.start 1 5] rfl) 1 overtaking
    (.cons (by decide) ⟨by decide, rfl⟩ (.cons (by decide) ⟨by decide, rfl⟩
      (.cons (by decide) ⟨by decide, rfl⟩ (.cons (by decide) ⟨by decide, rfl⟩
        (.cons (by decide) ⟨by decide, rfl⟩ (.cons (by decide) ⟨by decide, rfl⟩
          (.nil (by decide))))))))

end OriginOS
