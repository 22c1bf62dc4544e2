import OriginOS.Thread.LockInvariant

/-! One step of the machine, seen from the client: the steps that are not the client's own leave its
data, its places and its sleeping threads alone, and its own steps may call into `thread/sync.c`
when they respect what a caller owes. -/

namespace OriginOS

open Sched

variable {ι κ δ : Type} [DecidableEq ι]

/-- What a client owes at a call: `lock_acquire` must not make `holder_repeat_nr` wrap,
`lock_release` is for a lock that the caller has, and `sema_up` for a semaphore whose value is 0. -/
def SyncCall.Allowed (m : Machine ι κ δ) : SyncCall ι → Prop
  | .lockAcquire i => m.depth m.sched.runningThread i + 1 < 2 ^ 32
  | .lockRelease i => 0 < m.depth m.sched.runningThread i
  | .semaDown _ => True
  | .semaUp i => (m.sema (.bare i)).value = 0

/-- How often a thread has lock `j` when the call returns, if it had it `d` times before. -/
def SyncCall.after (j : ι) (d : Nat) : SyncCall ι → Nat
  | .lockAcquire i => if i = j then d + 1 else d
  | .lockRelease i => if i = j then d - 1 else d
  | .semaDown _ | .semaUp _ => d

section Calls

variable {m : Machine ι κ δ} {k : κ}

/-- The first step of a call to `lock_acquire` or `lock_release`, for a thread that has the lock and
may go to `q` with it. -/
theorem goto_held_ok (h : SyncInv m) {i : ι} {q : LockPc}
    (hne : m.sched.runningThread ≠ m.sched.idleThread)
    (hpc : m.pc m.sched.runningThread = .run k) (hheld : LockHeld m i m.sched.runningThread)
    (hin : Inside m.sched.runningThread (m.holder i) (m.holderRepeatNr i)
      (m.depth m.sched.runningThread i) (.code q)) : SyncInv (m.goto (.lock i q k)) := by
  refine ⟨h.sema.goto hne (fun r => by rw [hpc]; exact id) fun r => id, ?_⟩
  rw [goto_eq_edit m i]
  refine hheld.edit h.lock ?_ fun j hj => ?_
  · rw [show (Pc.lock i q k).place i = .code q from if_pos rfl]
    exact hin
  · rw [hpc, place_lock_of_ne hj]
    rfl

theorem goto_frame (h : SemaInv m) (i : ι) {q : LockPc}
    (hpc : m.pc m.sched.runningThread = .run k) : SyncFrame m (m.goto (.lock i q k)) := by
  rw [goto_eq_edit m i]
  exact edit_frame h _ _ _ _ (by rw [hpc]; rfl)

omit [DecidableEq ι] in
theorem goto_flag (i : ι) {q : LockPc} (hpc : m.pc m.sched.runningThread = .run k) :
    (m.goto (.lock i q k)).flag m.sched.runningThread = m.flag m.sched.runningThread := by
  rw [Machine.flag, Machine.flag, goto_pc, if_pos rfl, hpc]
  rfl

/-- A call of the running thread, which is in the client's code, into `thread/sync.c`. -/
theorem call_ok (h : SyncInv m) (hne : m.sched.runningThread ≠ m.sched.idleThread)
    (hpc : m.pc m.sched.runningThread = .run k) {c : SyncCall ι} (hc : c.Allowed m) :
    ∃ m', m.call c k = .ok m' ∧ SyncInv m' ∧ SyncFrame m m' ∧
      (∀ j, m'.depthOf m.sched.runningThread j = c.after j (m.depth m.sched.runningThread j)) ∧
      m'.flag m.sched.runningThread = m.flag m.sched.runningThread := by
  have hnot : ∀ r, ¬ (m.pc m.sched.runningThread).isDown r := fun r => by rw [hpc]; exact id
  have hat : ∀ i, (m.pc m.sched.runningThread).place i = .away := fun i => by rw [hpc]; rfl
  have hflag : m.flag m.sched.runningThread = m.sched.intrStatus := by
    rw [Machine.flag, hpc]
    exact if_pos rfl
  cases c with
  | lockAcquire i =>
    refine ⟨_, rfl, ?_, goto_frame h.sema i hpc, fun j => ?_, goto_flag i hpc⟩
    · by_cases hd : m.depth m.sched.runningThread i = 0
      · refine ⟨h.sema.goto hne hnot fun r => id, fun j => ?_⟩
        by_cases hj : j = i
        · subst hj
          refine (h.lock j).goto (hat j ▸ hd) ?_
          rw [show (Pc.lock j .acqTest k).place j = .code .acqTest from if_pos rfl]
          exact hd
        · exact (h.lock j).goto_other (by rw [hat, place_lock_of_ne hj])
      · have hheld := (h.lock i).held (t := m.sched.runningThread) (by rw [hat]; exact hd)
        have hin := hheld.inside
        rw [hat] at hin
        exact goto_held_ok h hne hpc hheld ⟨hin.1, hc, hin.2.2.1, hin.2.2.2⟩
    · rw [Machine.depthOf, goto_pc, if_pos rfl]
      rfl
  | lockRelease i =>
    refine ⟨_, rfl, ?_, goto_frame h.sema i hpc, fun j => ?_, goto_flag i hpc⟩
    · have hheld := (h.lock i).held (t := m.sched.runningThread) (by
        rw [hat]; exact Nat.pos_iff_ne_zero.mp hc)
      have hin := hheld.inside
      rw [hat] at hin
      exact goto_held_ok h hne hpc hheld hin
    · rw [Machine.depthOf, goto_pc, if_pos rfl]
      rfl
  | semaDown i =>
    obtain ⟨m', heq, hinv, hframe, hkeeps⟩ :=
      semaDown_ok h hne (by rw [hpc]; exact atDown_run i k) hflag
    refine ⟨m', heq, hinv, hframe, fun j => (hkeeps.depthOf j).trans ?_, hkeeps.flag⟩
    rw [Machine.depthOf, hpc]
    rfl
  | semaUp i =>
    have hgoto : m.goto (.run k) = m := by
      rw [Machine.goto, ← hpc, Function.update_eq_self]
    obtain ⟨m', heq, hup⟩ := up_ok (r := .bare i) h.sema hc
    refine ⟨m', (congrArg _ hgoto).trans heq, ⟨hup.inv, fun j => ?_⟩,
      ⟨hup.data, hup.all, hup.idle, fun t _ => congrFun hup.pc t, fun t _ => congrFun hup.depth t,
        fun t _ => hup.intrOf t, by rw [hup.pc], fun _ => ?_, fun t ht _ _ _ => hup.status t ht⟩,
      fun j => ?_, ?_⟩
    · exact (h.lock j).frame (congrArg _ (hup.other _ (by simp))) (congrFun hup.holder j)
        (congrFun hup.repeatNr j) (fun t => by rw [hup.depth]) fun t => by
          rw [hup.pc]
          exact .refl _
    · rw [hup.status _ (by rw [hpc]; trivial)]
      exact congrArg TaskStatus.isBlocked h.sema.sched.current
    · rw [Machine.depthOf, hup.pc, hup.depth, hpc]
      rfl
    · rw [Machine.flag, Machine.flag, hup.pc, hpc]
      exact hup.intrOf _

end Calls

/-- Thread `t` is asleep in the client's code. -/
def Machine.Asleep (m : Machine ι κ δ) (t : Nat) : Prop :=
  t ∈ m.sched.threadAllList ∧ (m.pc t).isRun ∧ (m.sched.status t).isBlocked = true

/-- What a step that is not the client's own leaves alone; a new thread begins at a place that
`start` admits. -/
structure Frame (start : κ → Prop) (m m' : Machine ι κ δ) : Prop where
  data : m'.data = m.data
  idle : m'.sched.idleThread = m.sched.idleThread
  all : ∀ t, t ∈ m.sched.threadAllList → t ∈ m'.sched.threadAllList
  client : ∀ t, t ∈ m.sched.threadAllList → (m'.pc t).client = (m.pc t).client
  asleep : ∀ t, t ≠ m.sched.idleThread → (m'.Asleep t ↔ m.Asleep t)
  depthOf : ∀ t i, m'.depthOf t i = m.depthOf t i
  flag : ∀ t, t ∈ m.sched.threadAllList → t ≠ m.sched.idleThread → m'.flag t = m.flag t
  inside : ∀ t, ¬ (m'.pc t).isRun → ¬ (m.pc t).isRun
  born : ∀ t, t ∈ m'.sched.threadAllList → t ∉ m.sched.threadAllList →
    ∃ k, start k ∧ m'.pc t = .run k

/-- A new state `s'` of the scheduler in which the threads inside `thread/sync.c` are asleep or
awake as they were. -/
structure Quiet (m : Machine ι κ δ) (s' : Sched) : Prop where
  inv : s'.Inv
  idle : s'.idleThread = m.sched.idleThread
  all : s'.threadAllList = m.sched.threadAllList
  status : ∀ t, ¬ (m.pc t).isRun →
    (m.sched.status t).isBlocked = true ∨ (s'.status t).isBlocked = true →
    s'.status t = m.sched.status t

section Steps

variable {m : Machine ι κ δ}

omit [DecidableEq ι] in
theorem SemaInv.quiet (h : SemaInv m) {s' : Sched} (hq : Quiet m s') (d : δ) :
    SemaInv { m with sched := s', data := d } := by
  refine h.frame rfl rfl hq.inv ?_ (fun t ht => h.unborn t (hq.all ▸ ht)) (fun t ht hd => ?_)
    (fun _ _ => Iff.rfl) fun t r hd => hq.status t (Pc.not_isRun_of_isDown hd)
  · show (m.pc s'.idleThread).isRun
    rw [hq.idle]
    exact h.idle
  · refine Bool.eq_false_iff.mpr fun hb => ?_
    have hst := hq.status t ht (.inr hb)
    obtain ⟨r, hr, -⟩ := h.asleep t ht (hst ▸ hb)
    exact hd r hr

theorem SyncInv.quiet (h : SyncInv m) {s' : Sched} (hq : Quiet m s') (d : δ) :
    SyncInv { m with sched := s', data := d } :=
  ⟨h.sema.quiet hq d, fun j => (h.lock j).frame rfl rfl rfl (fun _ => rfl) fun _ => .refl _⟩

theorem SyncInv.runAt (h : SyncInv m) {t : Nat} (ht : (m.pc t).isRun) (k : κ) :
    SyncInv { m with pc := Function.update m.pc t (.run k) } := by
  have hpc : ∀ u, Function.update m.pc t (.run k) u = if u = t then .run k else m.pc u :=
    fun u => Function.update_apply ..
  have hrun : ∀ u, (Function.update m.pc t (.run k) u).isRun ↔ (m.pc u).isRun := by
    intro u
    rw [hpc]
    split
    · next hu => rw [hu]; exact ⟨fun _ => ht, fun _ => trivial⟩
    · exact Iff.rfl
  refine ⟨h.sema.frame rfl rfl h.sema.sched ((hrun _).mpr h.sema.idle)
    (fun u hu => (hrun u).mpr (h.sema.unborn u hu)) (fun u hu hd => ?_) (fun u r => ?_)
    fun _ _ _ _ => rfl, fun j => (h.lock j).frame rfl rfl rfl (fun _ => rfl) fun u => ?_⟩
  · refine Bool.eq_false_iff.mpr fun hb => ?_
    have hold := (hrun u).not.mp hu
    obtain ⟨r, hr, -⟩ := h.sema.asleep u hold hb
    have hne : u ≠ t := fun heq => hold (heq ▸ ht)
    refine hd r ?_
    show (Function.update m.pc t (.run k) u).isDown r
    rw [hpc, if_neg hne]
    exact hr
  · show (Function.update m.pc t (.run k) u).isDown r ↔ _
    rw [hpc]
    split
    · next hu =>
      rw [hu]
      exact ⟨fun hd => absurd hd id, fun hd => absurd hd (Pc.not_isDown_of_isRun ht r)⟩
    · exact Iff.rfl
  · show ((m.pc u).place j).Into ((Function.update m.pc t (.run k) u).place j)
    rw [hpc]
    split
    · next hu =>
      rw [hu]
      cases hp : m.pc t with
      | run k' => exact .refl _
      | down r old k' => rw [hp] at ht; exact absurd ht id
      | lock i p k' => rw [hp] at ht; exact absurd ht id
    · exact .refl _

omit [DecidableEq ι] in
theorem flag_congr {m m' : Machine ι κ δ} {t : Nat} (hpc : m'.pc t = m.pc t)
    (hintr : m'.sched.intrOf t = m.sched.intrOf t) : m'.flag t = m.flag t := by
  rw [Machine.flag, Machine.flag, hpc, hintr]

theorem Quiet.frame {s' : Sched} {start : κ → Prop} (hq : Quiet m s')
    (hblocked : ∀ t, t ≠ m.sched.idleThread →
      (m.sched.status t).isBlocked = true ∨ (s'.status t).isBlocked = true →
      s'.status t = m.sched.status t)
    (hintr : ∀ t, t ≠ m.sched.idleThread → s'.intrOf t = m.sched.intrOf t) :
    Frame start m { m with sched := s' } := by
  refine ⟨rfl, hq.idle, fun t ht => by rw [hq.all]; exact ht, fun _ _ => rfl, fun t ht => ?_,
    fun _ _ => rfl, fun t _ hti => ?_, fun _ => id, fun t ht hnew => absurd (hq.all ▸ ht) hnew⟩
  · show t ∈ s'.threadAllList ∧ _ ∧ (s'.status t).isBlocked = true ↔ _
    rw [hq.all]
    refine and_congr_right fun _ => and_congr_right fun _ => ?_
    rw [← Bool.not_eq_false, keep_awake (hblocked t ht), Bool.not_eq_false]
  · exact flag_congr rfl (hintr t hti)

omit [DecidableEq ι] in
/-- A step inside `thread/sync.c` leaves the threads asleep in the client's code as they are. -/
theorem asleep_of_sync {m' : Machine ι κ δ} (h : SemaInv m) (hframe : SyncFrame m m') {t : Nat}
    (hti : t ≠ m.sched.idleThread) : m'.Asleep t ↔ m.Asleep t := by
  rw [Machine.Asleep, Machine.Asleep, hframe.all]
  refine and_congr_right fun _ => ?_
  by_cases ht : t = m.sched.runningThread
  · -- the running thread is not asleep, and asleep after the step only inside `sema_down`
    subst ht
    refine ⟨fun ⟨hrun, hb⟩ => ?_, fun ⟨_, hb⟩ => ?_⟩
    · rw [hframe.returned hrun] at hb
      exact absurd hb (by decide)
    · rw [h.sched.current] at hb
      exact absurd hb (by decide)
  · rw [hframe.pc t ht]
    refine and_congr_right fun hrun => ?_
    rw [← Bool.not_eq_false, keep_awake (hframe.blocked t hrun hti ht), Bool.not_eq_false]

theorem frame_of_sync {m' : Machine ι κ δ} {start : κ → Prop} (h : SyncInv m)
    (hpc : ¬ (m.pc m.sched.runningThread).isRun) (hframe : SyncFrame m m')
    (hkeeps : Keeps m m') : Frame start m m' := by
  refine ⟨hframe.data, hframe.idle, fun t ht => hframe.all.symm ▸ ht, fun t _ => ?_,
    fun t => asleep_of_sync h.sema hframe, fun t j => ?_, fun t _ _ => ?_, fun t ht => ?_,
    fun t ht hnew => absurd (hframe.all ▸ ht) hnew⟩
  · by_cases ht : t = m.sched.runningThread
    · rw [ht, hframe.client]
    · rw [hframe.pc t ht]
  · by_cases ht : t = m.sched.runningThread
    · rw [ht, hkeeps.depthOf]
    · rw [Machine.depthOf, Machine.depthOf, hframe.pc t ht, hframe.depth t ht]
  · by_cases ht : t = m.sched.runningThread
    · rw [ht, hkeeps.flag]
    · exact flag_congr (hframe.pc t ht) (hframe.intrOf t ht)
  · by_cases hcur : t = m.sched.runningThread
    · rw [hcur]
      exact hpc
    · rwa [hframe.pc t hcur] at ht

omit [DecidableEq ι] in
theorem quiet_of_passed (h : SemaInv m) {s' : Sched} (hs : Passed m.sched s') : Quiet m s' :=
  ⟨hs.inv, hs.idle, hs.all, fun t ht => hs.blocked t (h.ne_idle_of_not_isRun ht)⟩

theorem start_ok (h : SyncInv m) {start : κ → Prop} {thread : Nat} (prio : Nat) {k : κ}
    (hk : start k)
    (hnew : thread ∉ m.sched.threadAllList) (hnull : thread ≠ 0) :
    threadStart thread prio m.sched = .ok (started thread prio m.sched) ∧
    SyncInv { m with
      sched := started thread prio m.sched, pc := Function.update m.pc thread (.run k) } ∧
    Frame start m { m with
      sched := started thread prio m.sched, pc := Function.update m.pc thread (.run k) } := by
  obtain ⟨heq, hinv⟩ := threadStart_ok h.sema.sched prio hnew hnull
  have hborn := h.sema.unborn thread hnew
  have hrun : m.sched.runningThread ≠ thread := fun he => hnew (he ▸ h.sema.sched.running_mem)
  have hst : ∀ t, t ≠ thread → (started thread prio m.sched).status t = m.sched.status t :=
    fun t ht => (started_status thread prio t m.sched).trans (if_neg ht)
  have hpc : ∀ t, t ≠ thread → Function.update m.pc thread (.run k) t = m.pc t := fun t ht =>
    Function.update_of_ne ht ..
  have hself : Function.update m.pc thread (.run k) thread = .run k := Function.update_self ..
  have hat := h.runAt hborn k
  have hall : (started thread prio m.sched).threadAllList = m.sched.threadAllList ++ [thread] :=
    rfl
  have hmem : ∀ t, t ∈ m.sched.threadAllList → t ≠ thread := fun t ht he => hnew (he ▸ ht)
  refine ⟨heq, ⟨?_, fun j => ?_⟩, rfl, rfl, fun t ht => ?_, fun t ht => ?_, fun t hti => ?_,
    fun t j => ?_, fun t ht hti => ?_, fun t ht => ?_, fun t ht hold => ?_⟩
  · refine hat.sema.frame rfl rfl hinv hat.sema.idle (fun t ht => hat.sema.unborn t ?_)
      (fun t ht hd => ?_) (fun _ _ => Iff.rfl) fun t r hd _ => hst t ?_
    · exact fun mem => ht (List.mem_append_left _ mem)
    · have hne : t ≠ thread := by
        rintro rfl
        refine ht ?_
        show (Function.update m.pc t (.run k) t).isRun
        rw [hself]
        trivial
      show ((started thread prio m.sched).status t).isBlocked = false
      rw [hst t hne]
      refine Bool.eq_false_iff.mpr fun hb => ?_
      obtain ⟨r, hr, -⟩ := hat.sema.asleep t ht hb
      exact hd r hr
    · rintro rfl
      change (Function.update m.pc t (.run k) t).isDown r at hd
      rw [hself] at hd
      exact hd
  · exact (hat.lock j).frame rfl rfl rfl (fun _ => rfl) fun _ => .refl _
  · exact List.mem_append_left _ ht
  · show (Function.update m.pc thread (.run k) t).client = _
    rw [hpc t (hmem t ht)]
  · show t ∈ (started thread prio m.sched).threadAllList ∧
      (Function.update m.pc thread (.run k) t).isRun ∧
      ((started thread prio m.sched).status t).isBlocked = true ↔ _
    by_cases ht : t = thread
    · subst ht
      rw [started_status, if_pos rfl]
      exact ⟨fun hb => absurd hb.2.2 (by decide), fun hb => absurd hb.1 hnew⟩
    · rw [hall, hpc t ht, hst t ht, List.mem_append, List.mem_singleton, or_iff_left ht]
      exact Iff.rfl
  · rw [Machine.depthOf, Machine.depthOf]
    show (Function.update m.pc thread (.run k) t).depthAfter j _ = _
    by_cases ht : t = thread
    · subst ht
      rw [hself]
      cases hp : m.pc t with
      | run k' => rfl
      | down r old k' => rw [hp] at hborn; exact absurd hborn id
      | lock i p k' => rw [hp] at hborn; exact absurd hborn id
    · rw [hpc t ht]
  · refine flag_congr (hpc t (hmem t ht)) ?_
    show (if t = m.sched.runningThread then m.sched.intrStatus
      else Function.update m.sched.resume thread .on t) = _
    rw [Function.update_of_ne (hmem t ht)]
    rfl
  · have hne : t ≠ thread := by
      rintro rfl
      refine ht ?_
      show (Function.update m.pc t (.run k) t).isRun
      rw [hself]
      trivial
    rw [← hpc t hne]
    exact ht
  · have ht' : t = thread := by
      have := hall ▸ ht
      simpa [hold] using this
    exact ⟨k, hk, ht' ▸ hself⟩

end Steps

section Bare

variable {m m' : Machine ι κ δ}

/-- The running thread goes on outside `sema_down` of the semaphores that the client uses by itself,
and these are as they were. -/
def BareKept (m m' : Machine ι κ δ) : Prop :=
  (∀ j, m'.sema (.bare j) = m.sema (.bare j)) ∧
    ∀ j, ¬ (m'.pc m.sched.runningThread).isDown (.bare j)

omit [DecidableEq ι] in
theorem bareKept_goto {m₁ : Machine ι κ δ} (hsema : m₁.sema = m.sema)
    (hrun : m₁.sched.runningThread = m.sched.runningThread) {p : Pc ι κ}
    (hp : ∀ j, ¬ p.isDown (.bare j)) : BareKept m (m₁.goto p) := by
  refine ⟨fun j => congrFun hsema _, fun j => ?_⟩
  rw [goto_pc, if_pos hrun.symm]
  exact hp j

theorem downPass_bareKept (h : SemaInv m) {i : ι} {old : IntrStatus} {k : κ}
    (heq : m.downPass (.ofLock i) old k = .ok m') : BareKept m m' := by
  rcases Nat.le_one_iff_eq_zero_or_eq_one.mp (h.value (.ofLock i)) with hv | hv
  · obtain ⟨s', -, hslept⟩ := downPass_zero h old k hv
    obtain rfl := Except.ok.inj (heq.symm.trans hslept)
    refine ⟨fun j => (slept_sema ..).trans (if_neg (by simp)), fun j => ?_⟩
    rw [slept_pc, if_pos rfl]
    exact nofun
  · obtain rfl := Except.ok.inj (heq.symm.trans (downPass_one old k hv))
    refine ⟨fun j => (took_sema ..).trans (if_neg (by simp)), fun j => ?_⟩
    rw [took_pc, if_pos rfl]
    exact id

theorem lockStep_bareKept (h : SemaInv m) {i : ι} {p : LockPc} {k : κ}
    (heq : m.lockStep i k p = .ok m') : BareKept m m' := by
  have hpure : ∀ (m₁ : Machine ι κ δ) {q : Pc ι κ}, m₁.sema = m.sema →
      m₁.sched.runningThread = m.sched.runningThread → (∀ j, ¬ q.isDown (.bare j)) →
      (pure (m₁.goto q) : Except Panic (Machine ι κ δ)) = .ok m' → BareKept m m' := by
    intro m₁ q hsema hrun hq hok
    exact Except.ok.inj hok ▸ bareKept_goto hsema hrun hq
  cases p with
  | acqTest =>
    rw [Machine.lockStep] at heq
    split at heq
    · exact hpure m rfl rfl (fun _ => id) heq
    · exact hpure m rfl rfl (fun _ => id) heq
  | acqDown =>
    exact downPass_bareKept (m := { m with sched := intrDisable m.sched }) (h.intr .off) heq
  | relUp =>
    obtain ⟨⟨sema, sched⟩, -, hok⟩ := bind_eq_ok.mp heq
    obtain rfl := Except.ok.inj hok
    refine ⟨fun j => ?_, fun j => ?_⟩
    · show Function.update m.sema (.ofLock i) sema (.bare j) = _
      exact Function.update_of_ne (by simp) _ _
    · show ¬ (Function.update m.pc m.sched.runningThread (.run k) m.sched.runningThread).isDown _
      rw [Function.update_self]
      exact id
  | relTest =>
    rw [Machine.lockStep] at heq
    split at heq
    · exact hpure m rfl rfl (fun _ => id) heq
    · exact hpure m rfl rfl (fun _ => id) heq
  | acqCheck =>
    obtain ⟨-, -, heq⟩ := bind_eq_ok.mp heq
    exact hpure m rfl rfl (fun _ => id) heq
  | relCheck =>
    obtain ⟨-, -, heq⟩ := bind_eq_ok.mp heq
    exact hpure m rfl rfl (fun _ => id) heq
  | relOne =>
    obtain ⟨-, -, heq⟩ := bind_eq_ok.mp heq
    exact hpure m rfl rfl (fun _ => id) heq
  | acqHolder => exact hpure (m.setHolder i _) rfl rfl (fun _ => id) heq
  | acqSet => exact hpure ((m.setRepeat i 1).setDepth i _) rfl rfl (fun _ => id) heq
  | acqLoad => exact hpure m rfl rfl (fun _ => id) heq
  | acqStore n => exact hpure ((m.setRepeat i n).setDepth i _) rfl rfl (fun _ => id) heq
  | relLoad => exact hpure m rfl rfl (fun _ => id) heq
  | relStore n => exact hpure ((m.setRepeat i n).setDepth i _) rfl rfl (fun _ => id) heq
  | relHolder => exact hpure (m.setHolder i _) rfl rfl (fun _ => id) heq
  | relRepeat => exact hpure (m.setRepeat i 0) rfl rfl (fun _ => id) heq

end Bare

/-- The step is neither the client's nor an interrupt handler's. -/
def MachAct.isKernel {κ α β : Type} : MachAct κ α β → Bool
  | .irq _ | .client _ => false
  | _ => true

theorem MachAct.kernel_or {κ α β : Type} (a : MachAct κ α β) :
    a.isKernel = true ∨ (∃ b, a = .irq b) ∨ ∃ c, a = .client c := by
  cases a with
  | irq b => exact .inr (.inl ⟨b, rfl⟩)
  | client c => exact .inr (.inr ⟨c, rfl⟩)
  | _ => exact .inl rfl

namespace Client

variable {α β : Type} (C : Client ι κ δ α β) {m : Machine ι κ δ}

/-- A step of the kernel: no assertion fails, the invariant of `thread/sync.c` is kept, and the
client sees nothing but new threads. -/
theorem step_kernel (h : SyncInv m) {a : MachAct κ α β} (ha : a.isKernel = true)
    (hen : C.Enabled m a) :
    ∃ m', C.step a m = .ok m' ∧ SyncInv m' ∧ Frame C.start m m' := by
  cases a with
  | tick =>
    obtain ⟨s', heq, hs⟩ := intrTimerHandler_ok h.sema.sched
    have hq := quiet_of_passed h.sema hs
    refine ⟨_, ?_, h.quiet hq m.data, hq.frame hs.blocked fun t _ => hs.intrOf t⟩
    simp only [step, heq, ok_bind]
    rfl
  | irq b => exact Bool.noConfusion ha
  | idleBlock =>
    obtain ⟨s', heq, hs⟩ := threadBlock_ok h.sema.sched .blocked rfl
    have hne : ∀ t, t ≠ m.sched.idleThread → t ≠ m.sched.runningThread := fun t ht => by
      rwa [show m.sched.runningThread = m.sched.idleThread from hen]
    have hq : Quiet m s' := ⟨hs.inv, hs.idle, hs.all, fun t ht =>
      hs.blocked t (h.sema.ne_idle_of_not_isRun ht) (hne t (h.sema.ne_idle_of_not_isRun ht))⟩
    refine ⟨_, ?_, h.quiet hq m.data,
      hq.frame (fun t ht => hs.blocked t ht (hne t ht)) fun t _ => hs.intrOf t⟩
    simp only [step, heq, ok_bind]
    rfl
  | idleHlt =>
    have hq : Quiet m (intrSetStatus .on m.sched) :=
      ⟨h.sema.sched.intr .on, rfl, rfl, fun _ _ _ => rfl⟩
    refine ⟨_, rfl, h.quiet hq m.data, hq.frame (fun _ _ _ => rfl) fun t ht => ?_⟩
    have hne : t ≠ m.sched.runningThread := by
      rwa [show m.sched.runningThread = m.sched.idleThread from hen]
    exact (if_neg hne).trans (if_neg hne).symm
  | start thread prio k =>
    obtain ⟨hnull, hnew, hk⟩ := hen
    obtain ⟨heq, hinv, hframe⟩ := start_ok h prio hk hnew hnull
    refine ⟨_, ?_, hinv, hframe⟩
    simp only [step, heq, ok_bind]
    rfl
  | client a => exact Bool.noConfusion ha
  | sync =>
    have hpc : ¬ (m.pc m.sched.runningThread).isRun := by
      intro hrun
      cases hp : m.pc m.sched.runningThread with
      | run k => exact hen k hp
      | down r old k => rw [hp] at hrun; exact hrun
      | lock i p k => rw [hp] at hrun; exact hrun
    obtain ⟨m', heq, hinv, hframe, hkeeps⟩ := syncStep_ok h hpc
    exact ⟨m', heq, hinv, frame_of_sync h hpc hframe hkeeps⟩

/-- Such a step outside `thread/sync.c` moves no thread and leaves the semaphores alone. -/
theorem step_kernel_pc {a : MachAct κ α β} (ha : a.isKernel = true) (hne : a ≠ .sync)
    (hen : C.Enabled m a) {m' : Machine ι κ δ} (heq : C.step a m = .ok m') :
    m'.sema = m.sema ∧ ∀ t, m'.pc t = m.pc t ∨
      t ∉ m.sched.threadAllList ∧ ∃ k, C.start k ∧ m'.pc t = .run k := by
  cases a with
  | irq b => exact Bool.noConfusion ha
  | client a => exact Bool.noConfusion ha
  | sync => exact absurd rfl hne
  | tick =>
    obtain ⟨s', -, hok⟩ := bind_eq_ok.mp heq
    exact Except.ok.inj hok ▸ ⟨rfl, fun _ => .inl rfl⟩
  | idleBlock =>
    obtain ⟨s', -, hok⟩ := bind_eq_ok.mp heq
    exact Except.ok.inj hok ▸ ⟨rfl, fun _ => .inl rfl⟩
  | idleHlt => exact Except.ok.inj heq ▸ ⟨rfl, fun _ => .inl rfl⟩
  | start thread prio k =>
    obtain ⟨s', -, hok⟩ := bind_eq_ok.mp heq
    refine Except.ok.inj hok ▸ ⟨rfl, fun t => ?_⟩
    show Function.update m.pc thread (.run k) t = m.pc t ∨ _ ∧ ∃ k', C.start k' ∧
      Function.update m.pc thread (.run k) t = .run k'
    by_cases ht : t = thread
    · exact .inr ⟨ht ▸ hen.2.1, k, hen.2.2, by rw [ht, Function.update_self]⟩
    · exact .inl (Function.update_of_ne ht _ _)

end Client

/-- What a step of the client's code does that leaves the scheduler in `s'` and the data in `d`,
goes on at `k` and ends in the call `c`, if any. -/
structure ClientMoved (s' : Sched) (d : δ) (k : κ) (c : Option (SyncCall ι))
    (m m' : Machine ι κ δ) : Prop where
  inv : SyncInv m'
  data : m'.data = d
  idle : m'.sched.idleThread = m.sched.idleThread
  all : m'.sched.threadAllList = m.sched.threadAllList
  pc : ∀ t, t ≠ m.sched.runningThread → m'.pc t = m.pc t
  client : (m'.pc m.sched.runningThread).client = k
  returned : c = none → (m'.pc m.sched.runningThread).isRun
  asleep : ∀ t, t ≠ m.sched.idleThread → (m'.Asleep t ↔
    t ∈ m.sched.threadAllList ∧ (m.pc t).isRun ∧ (s'.status t).isBlocked = true)
  depthOf : ∀ t j, m'.depthOf t j = if t = m.sched.runningThread then
    c.elim (m.depthOf t j) (·.after j (m.depthOf t j)) else m.depthOf t j
  flag : ∀ t, m'.flag t = if t = m.sched.runningThread then s'.intrOf t else m.flag t

section Moved

variable {m : Machine ι κ δ} {s' : Sched} {d : δ} {k k' : κ}

/-- The state after the client's code, before the call that it ends in. -/
def Machine.moved (m : Machine ι κ δ) (s' : Sched) (d : δ) (k' : κ) : Machine ι κ δ :=
  { m with sched := s', data := d, pc := Function.update m.pc m.sched.runningThread (.run k') }

omit [DecidableEq ι] in
theorem moved_pc (m : Machine ι κ δ) (s' : Sched) (d : δ) (k' : κ) (t : Nat) :
    (m.moved s' d k').pc t = if t = m.sched.runningThread then .run k' else m.pc t :=
  Function.update_apply ..

omit [DecidableEq ι] in
theorem moved_isRun (s' : Sched) (d : δ) (k' : κ)
    (hpc : m.pc m.sched.runningThread = .run k) (t : Nat) :
    ((m.moved s' d k').pc t).isRun ↔ (m.pc t).isRun := by
  rw [moved_pc]
  split
  · next ht => rw [ht, hpc]; exact Iff.rfl
  · exact Iff.rfl

theorem moved_ok (h : SyncInv m) (d : δ) (k' : κ) (hpc : m.pc m.sched.runningThread = .run k)
    (hq : Quiet m s')
    (hintr : ∀ t, t ≠ m.sched.runningThread → s'.intrOf t = m.sched.intrOf t) :
    ClientMoved s' d k' none m (m.moved s' d k') := by
  have hrun : (m.pc m.sched.runningThread).isRun := by rw [hpc]; trivial
  refine ⟨?_, rfl, hq.idle, hq.all, fun t ht => (moved_pc ..).trans (if_neg ht), ?_,
    fun _ => (moved_isRun s' d k' hpc _).mpr hrun, fun t _ => ?_, fun t j => ?_, fun t => ?_⟩
  · refine (h.runAt hrun k').quiet ⟨hq.inv, hq.idle, hq.all, fun t ht => hq.status t ?_⟩ d
    exact (moved_isRun s' d k' hpc t).not.mp ht
  · rw [moved_pc, if_pos rfl]
    rfl
  · rw [Machine.Asleep, moved_isRun s' d k' hpc]
    exact and_congr_left fun _ => by
      rw [show (m.moved s' d k').sched.threadAllList = m.sched.threadAllList from hq.all]
  · rw [Option.elim, ite_self, Machine.depthOf, Machine.depthOf, moved_pc]
    split
    · next ht => rw [ht, hpc]; rfl
    · rfl
  · split
    · next ht => rw [Machine.flag, moved_pc, if_pos ht]; rfl
    · next ht => exact flag_congr ((moved_pc ..).trans (if_neg ht)) (hintr t ht)

theorem moved_call_ok (h : SyncInv m) (hne : m.sched.runningThread ≠ m.sched.idleThread)
    (hpc : m.pc m.sched.runningThread = .run k) (hq : Quiet m s')
    (hintr : ∀ t, t ≠ m.sched.runningThread → s'.intrOf t = m.sched.intrOf t)
    {call : SyncCall ι} (hcur : s'.runningThread = m.sched.runningThread)
    (hcall : call.Allowed (m.moved s' d k')) :
    ∃ m', (m.moved s' d k').call call k' = .ok m' ∧ ClientMoved s' d k' (some call) m m' := by
  have h₁ := moved_ok h d k' hpc hq hintr
  have hrun₁ : (m.moved s' d k').sched.runningThread = m.sched.runningThread := hcur
  have hpc₁ : (m.moved s' d k').pc (m.moved s' d k').sched.runningThread = .run k' := by
    rw [moved_pc, hrun₁, if_pos rfl]
  obtain ⟨m', heq, hinv, hframe, hdepth, hflag⟩ := call_ok h₁.inv
    (by rw [hrun₁, h₁.idle]; exact hne) hpc₁ hcall
  rw [hrun₁] at hdepth hflag
  refine ⟨m', heq, hinv, hframe.data, hframe.idle.trans hq.idle, hframe.all.trans hq.all,
    fun t ht => ?_, ?_, nofun, fun t hti => ?_, fun t j => ?_, fun t => ?_⟩
  · rw [hframe.pc t (by rwa [hrun₁]), h₁.pc t ht]
  · have hclient := hframe.client
    rw [hrun₁] at hclient
    rw [hclient, h₁.client]
  · rw [asleep_of_sync h₁.inv.sema hframe (by rwa [h₁.idle]), h₁.asleep t hti]
  · by_cases ht : t = m.sched.runningThread
    · rw [ht, if_pos rfl, hdepth]
      show call.after j (m.depth m.sched.runningThread j) = call.after j _
      rw [Machine.depthOf, hpc]
      rfl
    · rw [if_neg ht, Machine.depthOf, Machine.depthOf, hframe.pc t (by rwa [hrun₁]),
        hframe.depth t (by rwa [hrun₁]), h₁.pc t ht]
      rfl
  · by_cases ht : t = m.sched.runningThread
    · rw [ht, hflag, h₁.flag]
    · rw [if_neg ht, flag_congr (hframe.pc t (by rwa [hrun₁])) (hframe.intrOf t (by rwa [hrun₁])),
        h₁.flag, if_neg ht]

theorem Client.step_client_eq {α β : Type} (C : Client ι κ δ α β) {a : α} {c : Option (SyncCall ι)}
    (hpc : m.pc m.sched.runningThread = .run k)
    (hexec : C.exec a m.sched.runningThread k m.sched m.data = .ok (s', d, k', c)) :
    C.step (.client a) m = c.elim (.ok (m.moved s' d k')) ((m.moved s' d k').call · k') := by
  simp only [Client.step, Client.clientStep, hpc, hexec, ok_bind]
  cases c <;> rfl

theorem Client.step_client {α β : Type} (C : Client ι κ δ α β) (h : SyncInv m) {a : α}
    {c : Option (SyncCall ι)} (hne : m.sched.runningThread ≠ m.sched.idleThread)
    (hpc : m.pc m.sched.runningThread = .run k)
    (hexec : C.exec a m.sched.runningThread k m.sched m.data = .ok (s', d, k', c))
    (hq : Quiet m s')
    (hintr : ∀ t, t ≠ m.sched.runningThread → s'.intrOf t = m.sched.intrOf t)
    (hcall : ∀ call, c = some call → s'.runningThread = m.sched.runningThread ∧
      call.Allowed (m.moved s' d k')) :
    ∃ m', C.step (.client a) m = .ok m' ∧ ClientMoved s' d k' c m m' := by
  have hstep := C.step_client_eq hpc hexec
  cases c with
  | none => exact ⟨_, hstep, moved_ok h d k' hpc hq hintr⟩
  | some call =>
    obtain ⟨hcur, hallowed⟩ := hcall call rfl
    obtain ⟨m', heq, hmoved⟩ := moved_call_ok h hne hpc hq hintr hcur hallowed
    exact ⟨m', hstep.trans heq, hmoved⟩

end Moved

end OriginOS
