import OriginOS.Thread.SchedInvariant
import OriginOS.Thread.Sync

/-! What `sema_down` and `sema_up` keep true for any client: the waiters of a semaphore are the
threads asleep in its `sema_down`, and a free semaphore with waiters has a woken thread on its way
to it. -/

namespace OriginOS

open Sched

variable {ι κ δ : Type}

namespace Pc

def isRun : Pc ι κ → Prop
  | .run _ => True
  | _ => False

/-- The thread is in the `thread_block` of `sema_down` on `r`. -/
def isDown (r : SemaRef ι) : Pc ι κ → Prop
  | .down r' _ _ => r' = r
  | _ => False

instance : DecidablePred (isRun : Pc ι κ → Prop)
  | .run _ => .isTrue trivial
  | .down .. => .isFalse id
  | .lock .. => .isFalse id

instance [DecidableEq ι] (r : SemaRef ι) : DecidablePred (isDown r : Pc ι κ → Prop)
  | .run _ => .isFalse id
  | .down r' _ _ => inferInstanceAs (Decidable (r' = r))
  | .lock .. => .isFalse id

/-- The client's place that the thread is at or will return to. -/
def client : Pc ι κ → κ
  | .run k => k
  | .down _ _ k => k
  | .lock _ _ k => k

@[simp] theorem isDown_down (r r' : SemaRef ι) (old : IntrStatus) (k : κ) :
    (Pc.down r' old k : Pc ι κ).isDown r ↔ r' = r := Iff.rfl

theorem not_isRun_of_isDown {p : Pc ι κ} {r : SemaRef ι} (h : p.isDown r) : ¬ p.isRun := by
  cases p with
  | run k => exact absurd h id
  | down r' old k => exact id
  | lock i p k => exact absurd h id

theorem not_isDown_of_isRun {p : Pc ι κ} (h : p.isRun) (r : SemaRef ι) : ¬ p.isDown r :=
  fun hd => not_isRun_of_isDown hd h

@[simp] theorem not_isDown_afterDown (r r' : SemaRef ι) (k : κ) :
    ¬ (r'.afterDown k : Pc ι κ).isDown r := by
  cases r' <;> exact id

@[simp] theorem client_afterDown (r : SemaRef ι) (k : κ) :
    (r.afterDown k : Pc ι κ).client = k := by
  cases r <;> rfl

end Pc

theorem keep_blocked {a b : TaskStatus} (h : a.isBlocked = true ∨ b.isBlocked = true → b = a) :
    b = .blocked ↔ a = .blocked := by
  constructor
  · rintro rfl
    exact (h (.inr rfl)).symm
  · rintro rfl
    exact h (.inl rfl)

theorem keep_awake {a b : TaskStatus} (h : a.isBlocked = true ∨ b.isBlocked = true → b = a) :
    b.isBlocked = false ↔ a.isBlocked = false := by
  cases ha : a.isBlocked with
  | true => rw [h (.inl ha), ha]
  | false =>
    cases hb : b.isBlocked with
    | true => rw [h (.inr hb), ha] at hb; exact absurd hb (by decide)
    | false => rfl

/-- The invariant of the semaphores. `asleep`: inside `thread/sync.c` a thread is blocked only in
`sema_down`. -/
structure SemaInv (m : Machine ι κ δ) : Prop where
  sched : m.sched.Inv
  idle : (m.pc m.sched.idleThread).isRun
  unborn : ∀ t, t ∉ m.sched.threadAllList → (m.pc t).isRun
  asleep : ∀ t, ¬ (m.pc t).isRun → (m.sched.status t).isBlocked = true →
    ∃ r, (m.pc t).isDown r ∧ m.sched.status t = .blocked
  nodup : ∀ r, (m.sema r).waiters.Nodup
  waiters : ∀ r t, t ∈ (m.sema r).waiters ↔ (m.pc t).isDown r ∧ m.sched.status t = .blocked
  woken : ∀ r t, t ∈ m.woken r ↔ (m.pc t).isDown r ∧ (m.sched.status t).isBlocked = false
  value : ∀ r, (m.sema r).value ≤ 1
  wakeup : ∀ r, (m.sema r).value = 1 → (m.sema r).waiters ≠ [] → m.woken r ≠ []

theorem goto_pc (m : Machine ι κ δ) (p : Pc ι κ) (t : Nat) :
    (m.goto p).pc t = if t = m.sched.runningThread then p else m.pc t :=
  Function.update_apply ..

namespace SemaInv

variable {m m' : Machine ι κ δ}

theorem running_not_waiter (h : SemaInv m) (r : SemaRef ι) :
    m.sched.runningThread ∉ (m.sema r).waiters := by
  intro mem
  have hb := ((h.waiters r _).mp mem).2
  rw [h.sched.current] at hb
  exact absurd hb (by decide)

theorem ne_idle_of_not_isRun (h : SemaInv m) {t : Nat} (ht : ¬ (m.pc t).isRun) :
    t ≠ m.sched.idleThread := by
  rintro rfl
  exact ht h.idle

/-- A step that moves no thread into or out of `sema_down` and leaves the threads inside it asleep
or awake as they are. -/
theorem frame (h : SemaInv m) (hsema : m'.sema = m.sema) (hwoken : m'.woken = m.woken)
    (sched : m'.sched.Inv) (idle : (m'.pc m'.sched.idleThread).isRun)
    (unborn : ∀ t, t ∉ m'.sched.threadAllList → (m'.pc t).isRun)
    (awake : ∀ t, ¬ (m'.pc t).isRun → (∀ r, ¬ (m'.pc t).isDown r) →
      (m'.sched.status t).isBlocked = false)
    (down : ∀ t r, (m'.pc t).isDown r ↔ (m.pc t).isDown r)
    (status : ∀ t r, (m.pc t).isDown r →
      (m.sched.status t).isBlocked = true ∨ (m'.sched.status t).isBlocked = true →
      m'.sched.status t = m.sched.status t) : SemaInv m' := by
  refine ⟨sched, idle, unborn, fun t ht hb => ?_, ?_, fun r t => ?_, fun r t => ?_, ?_, ?_⟩
  · by_cases hd : ∃ r, (m'.pc t).isDown r
    · obtain ⟨r, hd⟩ := hd
      have hold := (down t r).mp hd
      have heq := status t r hold (.inr hb)
      obtain ⟨r', -, hblocked⟩ := h.asleep t (Pc.not_isRun_of_isDown hold) (heq ▸ hb)
      exact ⟨r, hd, heq.trans hblocked⟩
    · rw [awake t ht fun r hr => hd ⟨r, hr⟩] at hb
      exact absurd hb (by decide)
  · rw [hsema]; exact h.nodup
  · rw [hsema, h.waiters, down]
    exact and_congr_right fun hd => (keep_blocked (status t r hd)).symm
  · rw [hwoken, h.woken, down]
    exact and_congr_right fun hd => (keep_awake (status t r hd)).symm
  · rw [hsema]; exact h.value
  · rw [hsema, hwoken]; exact h.wakeup

theorem intr (h : SemaInv m) (st : IntrStatus) :
    SemaInv { m with sched := { m.sched with intrStatus := st } } :=
  ⟨h.sched.intr st, h.idle, h.unborn, h.asleep, h.nodup, h.waiters, h.woken, h.value, h.wakeup⟩

theorem goto (h : SemaInv m) {p : Pc ι κ} (hne : m.sched.runningThread ≠ m.sched.idleThread)
    (hold : ∀ r, ¬ (m.pc m.sched.runningThread).isDown r) (hnew : ∀ r, ¬ p.isDown r) :
    SemaInv (m.goto p) := by
  have hpc := goto_pc m p
  refine h.frame rfl rfl h.sched ?_ (fun t ht => ?_) (fun t ht hd => ?_) (fun t r => ?_)
    fun _ _ _ _ => rfl
  · rw [hpc]
    show (if m.sched.idleThread = _ then p else _).isRun
    rw [if_neg hne.symm]
    exact h.idle
  · rw [hpc, if_neg]
    · exact h.unborn t ht
    · rintro rfl
      exact ht h.sched.running_mem
  · rw [hpc] at ht hd
    split at ht
    · next heq => rw [heq]; exact congrArg TaskStatus.isBlocked h.sched.current
    · next hneq =>
      rw [if_neg hneq] at hd
      refine Bool.eq_false_iff.mpr fun hb => ?_
      obtain ⟨r, hr, -⟩ := h.asleep t ht hb
      exact hd r hr
  · rw [hpc]
    split
    · next heq =>
      rw [heq]
      exact ⟨fun hp => absurd hp (hnew r), fun hp => absurd hp (hold r)⟩
    · rfl

end SemaInv

theorem semaDownBlock_ok {m : Machine ι κ δ} (h : SemaInv m) (r : SemaRef ι) : ∃ s',
    Blocked .blocked m.sched s' ∧ semaDownBlock (m.sema r) m.sched =
      .ok ({ m.sema r with waiters := (m.sema r).waiters ++ [m.sched.runningThread] }, s') := by
  have hw := h.running_not_waiter r
  obtain ⟨s', heq, hs'⟩ := threadBlock_ok h.sched .blocked rfl
  refine ⟨s', hs', ?_⟩
  simp only [semaDownBlock, hw, not_false_eq_true, decide_true, assert_true, ok_bind, if_false,
    heq, pure, Except.pure]

section Semaphores

variable [DecidableEq ι] {m : Machine ι κ δ}

/-- The state after the running thread queued up at `r` and blocked, with `s'` for the
scheduler. -/
def slept (r : SemaRef ι) (old : IntrStatus) (k : κ) (m : Machine ι κ δ) (s' : Sched) :
    Machine ι κ δ :=
  { ((m.retest r).goto (.down r old k)).setSema r
      { m.sema r with waiters := (m.sema r).waiters ++ [m.sched.runningThread] } with sched := s' }

theorem downPass_zero (h : SemaInv m) {r : SemaRef ι} (old : IntrStatus) (k : κ)
    (hv : (m.sema r).value = 0) : ∃ s', Blocked .blocked m.sched s' ∧
      m.downPass r old k = .ok (slept r old k m s') := by
  obtain ⟨s', hs', heq⟩ := semaDownBlock_ok h r
  refine ⟨s', hs', ?_⟩
  simp only [Machine.downPass, if_pos hv, heq, ok_bind, pure, Except.pure]
  rfl

theorem slept_pc (r : SemaRef ι) (old : IntrStatus) (k : κ) (m : Machine ι κ δ) (s' : Sched)
    (t : Nat) : (slept r old k m s').pc t =
      if t = m.sched.runningThread then .down r old k else m.pc t :=
  Function.update_apply ..

theorem slept_sema (r r' : SemaRef ι) (old : IntrStatus) (k : κ) (m : Machine ι κ δ)
    (s' : Sched) : (slept r old k m s').sema r' =
      if r' = r then ⟨(m.sema r).value, (m.sema r).waiters ++ [m.sched.runningThread]⟩
      else m.sema r' :=
  Function.update_apply ..

theorem slept_woken (r r' : SemaRef ι) (old : IntrStatus) (k : κ) (m : Machine ι κ δ)
    (s' : Sched) : (slept r old k m s').woken r' =
      if r' = r then (m.woken r).filter (· ≠ m.sched.runningThread) else m.woken r' :=
  Function.update_apply ..

@[simp] theorem slept_sched (r : SemaRef ι) (old : IntrStatus) (k : κ) (m : Machine ι κ δ)
    (s' : Sched) : (slept r old k m s').sched = s' := rfl

theorem SemaInv.slept (h : SemaInv m) {r : SemaRef ι} {old : IntrStatus} {k : κ} {s' : Sched}
    (hne : m.sched.runningThread ≠ m.sched.idleThread)
    (hpc : ∀ r', (m.pc m.sched.runningThread).isDown r' → r' = r)
    (hv : (m.sema r).value = 0) (hs' : Blocked .blocked m.sched s') :
    SemaInv (OriginOS.slept r old k m s') := by
  have hself := hs'.self hne
  -- every thread inside `sema_down` but the running one keeps its status, asleep or awake
  have hkeep : ∀ t, ¬ (m.pc t).isRun → t ≠ m.sched.runningThread →
      (m.sched.status t).isBlocked = true ∨ (s'.status t).isBlocked = true →
      s'.status t = m.sched.status t := fun t ht htr =>
    hs'.blocked t (h.ne_idle_of_not_isRun ht) htr
  have hrun : ∀ t, t ≠ m.sched.runningThread → (OriginOS.slept r old k m s').pc t = m.pc t :=
    fun t ht => (slept_pc r old k m s' t).trans (if_neg ht)
  have hcur : (OriginOS.slept r old k m s').pc m.sched.runningThread = .down r old k :=
    (slept_pc r old k m s' _).trans (if_pos rfl)
  refine ⟨hs'.inv, ?_, fun t ht => ?_, fun t ht hb => ?_, fun r' => ?_, fun r' t => ?_,
    fun r' t => ?_, fun r' => ?_, fun r' => ?_⟩
  · rw [slept_sched, hs'.idle, hrun _ hne.symm]
    exact h.idle
  · rw [slept_sched, hs'.all] at ht
    rw [hrun t fun heq => ht (heq ▸ h.sched.running_mem)]
    exact h.unborn t ht
  · rw [slept_sched] at hb ⊢
    by_cases htr : t = m.sched.runningThread
    · subst htr
      exact ⟨r, by rw [hcur]; rfl, hself⟩
    · rw [hrun t htr] at ht ⊢
      have hst := hkeep t ht htr (.inr hb)
      rw [hst] at hb ⊢
      exact h.asleep t ht hb
  · rw [slept_sema]
    split
    · exact nodup_append_singleton (h.nodup r) (h.running_not_waiter r)
    · exact h.nodup r'
  · rw [slept_sema, slept_sched]
    by_cases htr : t = m.sched.runningThread
    · subst htr
      rw [hcur, Pc.isDown_down, hself]
      split
      · next hr => simp [hr]
      · next hr =>
        exact ⟨fun mem => absurd mem (h.running_not_waiter r'), fun hd => absurd hd.1.symm hr⟩
    · have hmem : t ∈ (if r' = r then
          (⟨(m.sema r).value, (m.sema r).waiters ++ [m.sched.runningThread]⟩ : Semaphore)
          else m.sema r').waiters ↔ t ∈ (m.sema r').waiters := by
        split
        · next hr => simp [hr, htr]
        · rfl
      rw [hmem, hrun t htr, h.waiters]
      exact and_congr_right fun hd => (keep_blocked (hkeep t (Pc.not_isRun_of_isDown hd) htr)).symm
  · rw [slept_woken, slept_sched]
    by_cases htr : t = m.sched.runningThread
    · subst htr
      rw [hcur, Pc.isDown_down, hself]
      split
      · simp [TaskStatus.isBlocked]
      · next hr =>
        refine ⟨fun mem => absurd (hpc r' ((h.woken r' _).mp mem).1) hr, fun hd => ?_⟩
        exact absurd hd.1.symm hr
    · have hmem : t ∈ (if r' = r then (m.woken r).filter (· ≠ m.sched.runningThread)
          else m.woken r') ↔ t ∈ m.woken r' := by
        split
        · next hr => simp [hr, htr]
        · rfl
      rw [hmem, hrun t htr, h.woken]
      exact and_congr_right fun hd => (keep_awake (hkeep t (Pc.not_isRun_of_isDown hd) htr)).symm
  · rw [slept_sema]
    split
    · exact h.value r
    · exact h.value r'
  · rw [slept_sema, slept_woken]
    split
    · intro h1
      simp only [hv] at h1
      exact absurd h1 (by decide)
    · exact h.wakeup r'

/-- The state after the running thread took the value of `r`. -/
def took (r : SemaRef ι) (old : IntrStatus) (k : κ) (m : Machine ι κ δ) : Machine ι κ δ :=
  { ((m.retest r).goto (r.afterDown k)).setSema r { m.sema r with value := 0 } with
    sched := intrSetStatus old m.sched }

theorem downPass_one {r : SemaRef ι} (old : IntrStatus) (k : κ) (hv : (m.sema r).value = 1) :
    m.downPass r old k = .ok (took r old k m) := by
  simp only [Machine.downPass, semaDownTake, hv]
  rfl

theorem took_pc (r : SemaRef ι) (old : IntrStatus) (k : κ) (m : Machine ι κ δ) (t : Nat) :
    (took r old k m).pc t = if t = m.sched.runningThread then r.afterDown k else m.pc t :=
  Function.update_apply ..

theorem took_sema (r r' : SemaRef ι) (old : IntrStatus) (k : κ) (m : Machine ι κ δ) :
    (took r old k m).sema r' = if r' = r then ⟨0, (m.sema r).waiters⟩ else m.sema r' :=
  Function.update_apply ..

theorem took_woken (r r' : SemaRef ι) (old : IntrStatus) (k : κ) (m : Machine ι κ δ) :
    (took r old k m).woken r' =
      if r' = r then (m.woken r).filter (· ≠ m.sched.runningThread) else m.woken r' :=
  Function.update_apply ..

theorem took_waiters (r r' : SemaRef ι) (old : IntrStatus) (k : κ) (m : Machine ι κ δ) :
    ((took r old k m).sema r').waiters = (m.sema r').waiters := by
  rw [took_sema]
  split
  · next h => rw [h]
  · rfl

theorem SemaInv.took (h : SemaInv m) {r : SemaRef ι} {old : IntrStatus} {k : κ}
    (hne : m.sched.runningThread ≠ m.sched.idleThread)
    (hpc : ∀ r', (m.pc m.sched.runningThread).isDown r' → r' = r) :
    SemaInv (OriginOS.took r old k m) := by
  have hrun : ∀ t, t ≠ m.sched.runningThread → (OriginOS.took r old k m).pc t = m.pc t :=
    fun t ht => (took_pc r old k m t).trans (if_neg ht)
  have hcur : (OriginOS.took r old k m).pc m.sched.runningThread = r.afterDown k :=
    (took_pc r old k m _).trans (if_pos rfl)
  refine ⟨h.sched.intr old, ?_, fun t ht => ?_, fun t ht hb => ?_, fun r' => ?_, fun r' t => ?_,
    fun r' t => ?_, fun r' => ?_, fun r' => ?_⟩
  · show ((OriginOS.took r old k m).pc m.sched.idleThread).isRun
    rw [hrun _ hne.symm]
    exact h.idle
  · rw [hrun t fun heq => ht (heq ▸ h.sched.running_mem)]
    exact h.unborn t ht
  · change (m.sched.status t).isBlocked = true at hb
    show ∃ r', _ ∧ m.sched.status t = .blocked
    have htr : t ≠ m.sched.runningThread := by
      rintro rfl
      rw [h.sched.current] at hb
      exact absurd hb (by decide)
    rw [hrun t htr] at ht ⊢
    exact h.asleep t ht hb
  · rw [took_waiters]
    exact h.nodup r'
  · show _ ↔ _ ∧ m.sched.status t = .blocked
    rw [took_waiters]
    by_cases htr : t = m.sched.runningThread
    · subst htr
      rw [hcur]
      exact ⟨fun mem => absurd mem (h.running_not_waiter r'), fun hd =>
        absurd hd.1 (Pc.not_isDown_afterDown r' r k)⟩
    · rw [hrun t htr]
      exact h.waiters r' t
  · show _ ↔ _ ∧ (m.sched.status t).isBlocked = false
    rw [took_woken]
    by_cases htr : t = m.sched.runningThread
    · subst htr
      rw [hcur]
      refine ⟨fun mem => ?_, fun hd => absurd hd.1 (Pc.not_isDown_afterDown r' r k)⟩
      split at mem
      · simp at mem
      · next hr => exact absurd (hpc r' ((h.woken r' _).mp mem).1) hr
    · rw [hrun t htr, ← h.woken]
      split
      · next hr => simp [hr, htr]
      · rfl
  · rw [took_sema]
    split
    · exact Nat.zero_le 1
    · exact h.value r'
  · rw [took_sema, took_woken]
    split
    · intro h1
      exact absurd h1 Nat.zero_ne_one
    · exact h.wakeup r'

/-- The state after `sema_up` found nobody waiting. -/
def upped (r : SemaRef ι) (m : Machine ι κ δ) : Machine ι κ δ :=
  m.setSema r { m.sema r with value := 1 }

/-- The state after `sema_up` woke the thread `b`, the first of the waiters. -/
def uppedWaking (r : SemaRef ι) (b : Nat) (rest : List Nat) (m : Machine ι κ δ) :
    Machine ι κ δ :=
  { m.setSema r ⟨1, rest⟩ with
    sched := unblocked b m.sched, woken := Function.update m.woken r (b :: m.woken r) }

theorem up_nil {r : SemaRef ι} (hv : (m.sema r).value = 0) (hw : (m.sema r).waiters = []) :
    m.up r = .ok (upped r m) := by
  have hwake : m.wake r = m := by
    simp only [Machine.wake, hw, List.take_nil, List.nil_append, Function.update_eq_self]
  have hs : semaUp (m.sema r) m.sched = .ok ({ m.sema r with value := 1 }, m.sched) := by
    simp only [semaUp, semaUpWake, hw, hv, decide_true, assert_true, ok_bind, pure, Except.pure]
    rfl
  simp only [Machine.up, hs, ok_bind, hwake]
  rfl

theorem up_error {r : SemaRef ι} (hv : (m.sema r).value ≠ 0) :
    m.up r = .error ⟨"./thread/sync.c", 45, "sema_up", "psema->value == 0"⟩ := by
  simp only [Machine.up, semaUp, hv, decide_false, assert_false, error_bind]

theorem up_cons (h : SemaInv m) {r : SemaRef ι} {b : Nat} {rest : List Nat}
    (hv : (m.sema r).value = 0) (hw : (m.sema r).waiters = b :: rest) :
    m.up r = .ok (uppedWaking r b rest m) := by
  have hb := ((h.waiters r b).mp (by rw [hw]; exact List.mem_cons_self)).2
  have hun : threadUnblock b (intrDisable m.sched) = .ok (unblocked b (intrDisable m.sched)) :=
    threadUnblock_ok (h.sched.toConsistent.intr .off) (by
      show (m.sched.status b).isBlocked = true
      rw [hb]; rfl)
  have hs : semaUp (m.sema r) m.sched = .ok (⟨1, rest⟩, unblocked b m.sched) := by
    simp only [semaUp, semaUpWake, hv, hw, hun, decide_true, assert_true, ok_bind, pure,
      Except.pure]
    rfl
  simp only [Machine.up, hs, ok_bind]
  simp only [Machine.wake, hw, List.take_succ_cons, List.take_zero, List.cons_append,
    List.nil_append]
  rfl

theorem SemaInv.upped (h : SemaInv m) {r : SemaRef ι} (hw : (m.sema r).waiters = []) :
    SemaInv (OriginOS.upped r m) := by
  have hsema : ∀ r', (OriginOS.upped r m).sema r' =
      if r' = r then ⟨1, (m.sema r).waiters⟩ else m.sema r' := fun r' => Function.update_apply ..
  have hwaiters : ∀ r', ((OriginOS.upped r m).sema r').waiters = (m.sema r').waiters := by
    intro r'
    rw [hsema]
    split
    · next heq => rw [heq]
    · rfl
  refine ⟨h.sched, h.idle, h.unborn, h.asleep, fun r' => hwaiters r' ▸ h.nodup r',
    fun r' t => by rw [hwaiters]; exact h.waiters r' t, h.woken, fun r' => ?_,
    fun r' hv hne => ?_⟩
  · rw [hsema]
    split
    · exact Nat.le_refl 1
    · exact h.value r'
  · rw [hwaiters] at hne
    rw [hsema] at hv
    split at hv
    · next heq => exact absurd (heq ▸ hw) hne
    · exact h.wakeup r' hv hne

theorem SemaInv.uppedWaking (h : SemaInv m) {r : SemaRef ι} {b : Nat} {rest : List Nat}
    (hw : (m.sema r).waiters = b :: rest) : SemaInv (OriginOS.uppedWaking r b rest m) := by
  obtain ⟨hdown, hblocked⟩ := (h.waiters r b).mp (by rw [hw]; exact List.mem_cons_self)
  have hnodup : b ∉ rest ∧ rest.Nodup := List.nodup_cons.mp (hw ▸ h.nodup r)
  have hall : b ∈ m.sched.threadAllList := by
    by_contra hb
    exact Pc.not_isRun_of_isDown hdown (h.unborn b hb)
  have hisb : (m.sched.status b).isBlocked = true := by rw [hblocked]; rfl
  have hsema : ∀ r', (OriginOS.uppedWaking r b rest m).sema r' =
      if r' = r then ⟨1, rest⟩ else m.sema r' := fun r' => Function.update_apply ..
  have hwoken : ∀ r', (OriginOS.uppedWaking r b rest m).woken r' =
      if r' = r then b :: m.woken r else m.woken r' := fun r' => Function.update_apply ..
  have hst : ∀ t, (OriginOS.uppedWaking r b rest m).sched.status t =
      if t = b then .ready else m.sched.status t := fun t => unblocked_status b t m.sched
  have hother : ∀ r', r' ≠ r → ¬ (m.pc b).isDown r' := by
    intro r' hr hd
    cases hp : m.pc b with
    | run k => rw [hp] at hdown; exact hdown
    | down r'' old k =>
      rw [hp] at hd hdown
      exact hr (hd.symm.trans hdown)
    | lock i p k => rw [hp] at hdown; exact hdown
  refine ⟨unblocked_inv h.sched hall hisb, h.idle, h.unborn, fun t ht hb => ?_, fun r' => ?_,
    fun r' t => ?_, fun r' t => ?_, fun r' => ?_, fun r' => ?_⟩
  · rw [hst] at hb ⊢
    split at hb
    · exact absurd hb (by decide)
    · next hne => rw [if_neg hne]; exact h.asleep t ht hb
  · rw [hsema]
    split
    · exact hnodup.2
    · exact h.nodup r'
  · rw [hsema, hst]
    show _ ↔ (m.pc t).isDown r' ∧ _
    have hold := h.waiters r' t
    by_cases htb : t = b
    · subst htb
      rw [if_pos rfl]
      refine ⟨fun mem => ?_, fun hd => absurd hd.2 (by decide)⟩
      split at mem
      · exact absurd mem hnodup.1
      · next hr => exact absurd (hold.mp mem).1 (hother r' hr)
    · rw [if_neg htb, ← hold]
      split
      · next hr => simp [hr, hw, htb]
      · rfl
  · rw [hwoken, hst]
    show _ ↔ (m.pc t).isDown r' ∧ _
    have hold := h.woken r' t
    by_cases htb : t = b
    · subst htb
      rw [if_pos rfl]
      split
      · next hr => simp [hr, hdown, TaskStatus.isBlocked]
      · next hr =>
        exact ⟨fun mem => absurd (hold.mp mem).1 (hother r' hr), fun hd =>
          absurd hd.1 (hother r' hr)⟩
    · rw [if_neg htb, ← hold]
      split
      · next hr => simp [hr, htb]
      · rfl
  · rw [hsema]
    split
    · exact Nat.le_refl 1
    · exact h.value r'
  · rw [hsema, hwoken]
    split
    · exact fun _ _ => List.cons_ne_nil _ _
    · exact h.wakeup r'

end Semaphores

end OriginOS
