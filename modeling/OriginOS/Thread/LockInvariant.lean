import OriginOS.Thread.SyncInvariant

/-! Locks: at most one thread is between taking and giving back the semaphore of a lock, and its
place in the code of `lock_acquire` and `lock_release` fixes `holder`, `holder_repeat_nr` and how
often it has the lock. -/

namespace OriginOS

open Sched

variable {ι κ δ : Type} [DecidableEq ι]

/-- Where a thread is with respect to one lock: nowhere near it, asleep in its `sema_down`, or in
the code of `lock_acquire` or `lock_release`. -/
inductive Place where
  | away
  | waiting
  | code (p : LockPc)
deriving DecidableEq, Repr

/-- How often a thread that has the lock `d` times will have it when its call returns. -/
def LockPc.after (d : Nat) : LockPc → Nat
  | .acqTest | .acqDown | .acqHolder | .acqCheck | .acqSet | .acqLoad | .acqStore _ => d + 1
  | .relCheck | .relTest | .relLoad | .relStore _ | .relOne | .relHolder | .relRepeat | .relUp =>
    d - 1

namespace Pc

/-- The place of a thread with respect to lock `i`. -/
def place (i : ι) : Pc ι κ → Place
  | .run _ => .away
  | .down r _ _ => if r = .ofLock i then .waiting else .away
  | .lock j p _ => if j = i then .code p else .away

/-- How often a thread that has lock `i` `d` times will have it when it is back in the client's
code. -/
def depthAfter (i : ι) (d : Nat) : Pc ι κ → Nat
  | .run _ => d
  | .down r _ _ => if r = .ofLock i then d + 1 else d
  | .lock j p _ => if j = i then p.after d else d

end Pc

/-- A thread that has not got the lock: it has it `d = 0` times and is not past `sema_down`. -/
def Outside (d : Nat) : Place → Prop
  | .away | .waiting | .code .acqTest | .code .acqDown => d = 0
  | _ => False

/-- What holds while thread `t` has the lock, by its place: `d` is how often it has it, and `holder`
and `n` are the lock's `holder` and `holder_repeat_nr`. -/
def Inside (t : Nat) (holder : Option Nat) (n d : Nat) : Place → Prop
  | .away | .code .relCheck | .code .relTest =>
    0 < d ∧ d < 2 ^ 32 ∧ holder = some t ∧ n = d
  | .code .acqTest | .code .acqLoad => 0 < d ∧ d + 1 < 2 ^ 32 ∧ holder = some t ∧ n = d
  | .code (.acqStore k) => 0 < d ∧ d + 1 < 2 ^ 32 ∧ holder = some t ∧ n = d ∧ k = d + 1
  | .code .acqHolder => d = 0 ∧ holder = none ∧ n = 0
  | .code .acqCheck | .code .acqSet => d = 0 ∧ holder = some t ∧ n = 0
  | .code .relLoad => 1 < d ∧ d < 2 ^ 32 ∧ holder = some t ∧ n = d
  | .code (.relStore k) => 1 < d ∧ d < 2 ^ 32 ∧ holder = some t ∧ n = d ∧ k = d - 1
  | .code .relOne | .code .relHolder => d = 1 ∧ holder = some t ∧ n = 1
  | .code .relRepeat => d = 1 ∧ holder = none ∧ n = 1
  | .code .relUp => d = 1 ∧ holder = none ∧ n = 0
  | .waiting | .code .acqDown => False

structure LockFree (m : Machine ι κ δ) (i : ι) : Prop where
  value : (m.sema (.ofLock i)).value = 1
  holder : m.holder i = none
  repeatNr : m.holderRepeatNr i = 0
  outside : ∀ t, Outside (m.depth t i) ((m.pc t).place i)

structure LockHeld (m : Machine ι κ δ) (i : ι) (t : Nat) : Prop where
  value : (m.sema (.ofLock i)).value = 0
  inside : Inside t (m.holder i) (m.holderRepeatNr i) (m.depth t i) ((m.pc t).place i)
  outside : ∀ u, u ≠ t → Outside (m.depth u i) ((m.pc u).place i)

def LockInv (m : Machine ι κ δ) (i : ι) : Prop := LockFree m i ∨ ∃ t, LockHeld m i t

structure SyncInv (m : Machine ι κ δ) : Prop where
  sema : SemaInv m
  lock : ∀ i, LockInv m i

theorem Inside.not_outside {t : Nat} {holder : Option Nat} {n d : Nat} {p : Place}
    (h : Inside t holder n d p) : ¬ Outside d p := by
  cases p with
  | away => exact Nat.pos_iff_ne_zero.mp h.1
  | waiting => exact absurd h id
  | code p =>
    cases p with
    | acqTest => exact Nat.pos_iff_ne_zero.mp h.1
    | acqDown => exact absurd h id
    | _ => exact id

theorem Inside.holder_eq {t u : Nat} {holder : Option Nat} {n d : Nat} {p : Place}
    (h : Inside t holder n d p) (hu : holder = some u) : u = t := by
  subst hu
  cases p with
  | away => exact Option.some.inj h.2.2.1
  | waiting => exact absurd h id
  | code p =>
    cases p <;> simp only [Inside, Option.some.injEq, reduceCtorEq, false_and, and_false] at h <;>
      first | exact h.2.2.1 | exact h.2.1

/-- A thread may go from place `p` to place `q` while nothing else changes. -/
def Place.Into (p q : Place) : Prop :=
  (∀ d, Outside d p → Outside d q) ∧ ∀ t holder n d, Inside t holder n d p → Inside t holder n d q

theorem Place.Into.refl (p : Place) : p.Into p := ⟨fun _ => id, fun _ _ _ _ => id⟩

theorem Place.Into.of_eq {p q : Place} (h : p = q) : p.Into q := h ▸ .refl p

theorem Place.Into.waiting {p : Place} (h : p = .waiting ∨ p = .code .acqDown) :
    p.Into .waiting := by
  rcases h with rfl | rfl
  · exact .refl _
  · exact ⟨fun _ => id, fun _ _ _ _ => id⟩

namespace LockInv

variable {m m' : Machine ι κ δ} {i : ι}

theorem held (h : LockInv m i) {t : Nat} (ht : ¬ Outside (m.depth t i) ((m.pc t).place i)) :
    LockHeld m i t := by
  rcases h with hfree | ⟨u, hu⟩
  · exact absurd (hfree.outside t) ht
  · by_cases htu : t = u
    · exact htu ▸ hu
    · exact absurd (hu.outside t htu) ht

theorem held_of_holder (h : LockInv m i) {t : Nat} (ht : m.holder i = some t) :
    LockHeld m i t := by
  rcases h with hfree | ⟨u, hu⟩
  · rw [hfree.holder] at ht
    exact absurd ht (by simp)
  · exact hu.inside.holder_eq ht ▸ hu

theorem frame (h : LockInv m i)
    (value : (m'.sema (.ofLock i)).value = (m.sema (.ofLock i)).value)
    (holder : m'.holder i = m.holder i) (rep : m'.holderRepeatNr i = m.holderRepeatNr i)
    (depth : ∀ t, m'.depth t i = m.depth t i)
    (place : ∀ t, ((m.pc t).place i).Into ((m'.pc t).place i)) : LockInv m' i := by
  rcases h with hfree | ⟨t, ht⟩
  · exact .inl ⟨value.trans hfree.value, holder.trans hfree.holder, rep.trans hfree.repeatNr,
      fun t => by rw [depth]; exact (place t).1 _ (hfree.outside t)⟩
  · refine .inr ⟨t, value.trans ht.value, ?_, fun u hu => ?_⟩
    · rw [holder, rep, depth]
      exact (place t).2 _ _ _ _ ht.inside
    · rw [depth]
      exact (place u).1 _ (ht.outside u hu)

end LockInv

/-- The interrupt status that thread `t` has in the client's code, now or when it is back there. -/
def Machine.flag (m : Machine ι κ δ) (t : Nat) : IntrStatus :=
  match m.pc t with
  | .down _ old _ => old
  | _ => m.sched.intrOf t

/-- How often thread `t` has lock `i`, now or when it is back in the client's code. -/
def Machine.depthOf (m : Machine ι κ δ) (t : Nat) (i : ι) : Nat :=
  (m.pc t).depthAfter i (m.depth t i)

/-- What a step of the running thread inside `thread/sync.c`, or a call into it, leaves alone. -/
structure SyncFrame (m m' : Machine ι κ δ) : Prop where
  data : m'.data = m.data
  all : m'.sched.threadAllList = m.sched.threadAllList
  idle : m'.sched.idleThread = m.sched.idleThread
  pc : ∀ t, t ≠ m.sched.runningThread → m'.pc t = m.pc t
  depth : ∀ t, t ≠ m.sched.runningThread → m'.depth t = m.depth t
  intrOf : ∀ t, t ≠ m.sched.runningThread → m'.sched.intrOf t = m.sched.intrOf t
  client : (m'.pc m.sched.runningThread).client = (m.pc m.sched.runningThread).client
  returned : (m'.pc m.sched.runningThread).isRun →
    (m'.sched.status m.sched.runningThread).isBlocked = false
  blocked : ∀ t, (m.pc t).isRun → t ≠ m.sched.idleThread → t ≠ m.sched.runningThread →
    (m.sched.status t).isBlocked = true ∨ (m'.sched.status t).isBlocked = true →
    m'.sched.status t = m.sched.status t

/-- What a step of the running thread inside `thread/sync.c` keeps for its return. -/
structure Keeps (m m' : Machine ι κ δ) : Prop where
  depthOf : ∀ j, m'.depthOf m.sched.runningThread j = m.depthOf m.sched.runningThread j
  flag : m'.flag m.sched.runningThread = m.flag m.sched.runningThread

section Held

variable {m : Machine ι κ δ} {i : ι}

/-- The running thread stores into the fields of lock `i`, now has it `d` times, and goes on at
`p`. -/
def Machine.edit (m : Machine ι κ δ) (i : ι) (holder : Option Nat) (n d : Nat) (p : Pc ι κ) :
    Machine ι κ δ :=
  (((m.setHolder i holder).setRepeat i n).setDepth i d).goto p

theorem edit_pc (m : Machine ι κ δ) (i : ι) (holder : Option Nat) (n d : Nat) (p : Pc ι κ)
    (t : Nat) : (m.edit i holder n d p).pc t =
      if t = m.sched.runningThread then p else m.pc t :=
  Function.update_apply ..

theorem edit_holder (m : Machine ι κ δ) (i j : ι) (holder : Option Nat) (n d : Nat)
    (p : Pc ι κ) : (m.edit i holder n d p).holder j = if j = i then holder else m.holder j :=
  Function.update_apply ..

theorem edit_repeat (m : Machine ι κ δ) (i j : ι) (holder : Option Nat) (n d : Nat)
    (p : Pc ι κ) :
    (m.edit i holder n d p).holderRepeatNr j = if j = i then n else m.holderRepeatNr j :=
  Function.update_apply ..

theorem edit_depth (m : Machine ι κ δ) (i j : ι) (holder : Option Nat) (n d : Nat) (p : Pc ι κ)
    (t : Nat) : (m.edit i holder n d p).depth t j =
      if t = m.sched.runningThread then (if j = i then d else m.depth t j) else m.depth t j := by
  show Function.update m.depth m.sched.runningThread _ t j = _
  rw [Function.update_apply]
  split
  · next h => rw [h, Function.update_apply]; rfl
  · rfl

/-- The thread that has lock `i` keeps the invariant of all locks when its new place agrees with
what it stored. -/
theorem LockHeld.edit (hlock : ∀ j, LockInv m j) (h : LockHeld m i m.sched.runningThread)
    {holder : Option Nat} {n d : Nat} {p : Pc ι κ}
    (hin : Inside m.sched.runningThread holder n d (p.place i))
    (hother : ∀ j, j ≠ i → p.place j = (m.pc m.sched.runningThread).place j) (j : ι) :
    LockInv (m.edit i holder n d p) j := by
  by_cases hj : j = i
  · subst hj
    refine .inr ⟨m.sched.runningThread, h.value, ?_, fun u hu => ?_⟩
    · rw [edit_pc, edit_holder, edit_repeat, edit_depth, if_pos rfl, if_pos rfl, if_pos rfl,
        if_pos rfl, if_pos rfl]
      exact hin
    · rw [edit_pc, edit_depth, if_neg hu, if_neg hu]
      exact h.outside u hu
  · refine (hlock j).frame rfl ?_ ?_ (fun t => ?_) fun t => ?_
    · rw [edit_holder, if_neg hj]
    · rw [edit_repeat, if_neg hj]
    · rw [edit_depth, if_neg hj, ite_self]
    · rw [edit_pc]
      split
      · next ht => rw [ht]; exact .of_eq (hother j hj).symm
      · exact .refl _

theorem place_lock_of_ne {j : ι} (hj : j ≠ i) (p : LockPc) (k : κ) :
    (Pc.lock i p k).place j = .away :=
  if_neg (Ne.symm hj)

/-- The outcome `r` of a step of the running thread, at `p` in the code of lock `i`, is an edit of
the lock that agrees with the thread's new place. -/
def Advances (m : Machine ι κ δ) (i : ι) (p : LockPc) (k : κ)
    (r : Except Panic (Machine ι κ δ)) : Prop :=
  ∃ holder n d pc, r = .ok (m.edit i holder n d pc) ∧
    Inside m.sched.runningThread holder n d (pc.place i) ∧
    (pc = .run k ∨ ∃ q, pc = .lock i q k) ∧
    pc.depthAfter i d = p.after (m.depth m.sched.runningThread i)

theorem Advances.code {p : LockPc} {k : κ} (q : LockPc) (holder : Option Nat) (n : Nat)
    (hin : Inside m.sched.runningThread holder n (m.depth m.sched.runningThread i) (.code q))
    (hafter : q.after (m.depth m.sched.runningThread i) =
      p.after (m.depth m.sched.runningThread i)) :
    Advances m i p k (.ok (((m.setHolder i holder).setRepeat i n).goto (.lock i q k))) := by
  refine ⟨holder, n, m.depth m.sched.runningThread i, .lock i q k, ?_, ?_, .inr ⟨q, rfl⟩,
    (if_pos rfl).trans hafter⟩
  · simp only [Machine.edit, Machine.setDepth, Machine.setHolder, Machine.setRepeat,
      Function.update_eq_self]
  · rw [show (Pc.lock i q k).place i = .code q from if_pos rfl]
    exact hin

theorem setHolder_self (m : Machine ι κ δ) (i : ι) : m.setHolder i (m.holder i) = m := by
  simp only [Machine.setHolder, Function.update_eq_self]

theorem setRepeat_self (m : Machine ι κ δ) (i : ι) :
    m.setRepeat i (m.holderRepeatNr i) = m := by
  simp only [Machine.setRepeat, Function.update_eq_self]

theorem Advances.goto {p : LockPc} {k : κ} (q : LockPc)
    (hin : Inside m.sched.runningThread (m.holder i) (m.holderRepeatNr i)
      (m.depth m.sched.runningThread i) (.code q))
    (hafter : q.after (m.depth m.sched.runningThread i) =
      p.after (m.depth m.sched.runningThread i)) :
    Advances m i p k (.ok (m.goto (.lock i q k))) := by
  have h := Advances.code (p := p) (k := k) q _ _ hin hafter
  rwa [setHolder_self, setRepeat_self] at h

/-- The return to the client with `holder_repeat_nr` and the thread's depth set to `n`. -/
theorem Advances.ret {p : LockPc} {k : κ} {n : Nat} (hpos : 0 < n) (hlt : n < 2 ^ 32)
    (hholder : m.holder i = some m.sched.runningThread)
    (hafter : n = p.after (m.depth m.sched.runningThread i)) :
    Advances m i p k (.ok (((m.setRepeat i n).setDepth i n).goto (.run k))) := by
  refine ⟨m.holder i, n, n, .run k, ?_, ⟨hpos, hlt, hholder, rfl⟩, .inl rfl, hafter⟩
  rw [Machine.edit, setHolder_self]

/-- A step of the thread that has lock `i`, inside `lock_acquire` or `lock_release` of it and before
the final `sema_up`: no assertion fails. -/
theorem lockStep_held (h : LockHeld m i m.sched.runningThread) {p : LockPc} {k : κ}
    (hpc : m.pc m.sched.runningThread = .lock i p k) (hup : p ≠ .relUp) :
    Advances m i p k (m.lockStep i k p) := by
  have hin := h.inside
  rw [hpc, show (Pc.lock i p k).place i = .code p from if_pos rfl] at hin
  cases p with
  | acqTest =>
    rw [Machine.lockStep, if_neg (not_not.mpr hin.2.2.1)]
    exact .goto .acqLoad hin rfl
  | acqDown => exact absurd hin id
  | acqHolder =>
    obtain ⟨hd, -, hn⟩ := hin
    have hstep := Advances.code (m := m) (i := i) (p := .acqHolder) (k := k) .acqCheck
      (some m.sched.runningThread) (m.holderRepeatNr i) ⟨hd, rfl, hn⟩ rfl
    rwa [show (m.setHolder i (some m.sched.runningThread)).setRepeat i (m.holderRepeatNr i) =
      m.setHolder i (some m.sched.runningThread) from setRepeat_self _ i] at hstep
  | acqCheck =>
    rw [Machine.lockStep, assert_of (decide_eq_true hin.2.2), ok_bind]
    exact .goto .acqSet hin rfl
  | acqSet =>
    obtain ⟨hd, hholder, -⟩ := hin
    rw [Machine.lockStep, hd]
    exact .ret Nat.zero_lt_one (by decide) hholder (by rw [hd]; rfl)
  | acqLoad =>
    obtain ⟨hd, hlt, hholder, hn⟩ := hin
    have hmod : (m.holderRepeatNr i + 1) % 2 ^ 32 = m.depth m.sched.runningThread i + 1 := by
      rw [hn, Nat.mod_eq_of_lt hlt]
    rw [Machine.lockStep, hmod]
    exact .goto (.acqStore _) ⟨hd, hlt, hholder, hn, rfl⟩ rfl
  | acqStore n =>
    obtain ⟨-, hlt, hholder, -, rfl⟩ := hin
    exact .ret (Nat.succ_pos _) hlt hholder rfl
  | relCheck =>
    rw [Machine.lockStep, assert_of (decide_eq_true hin.2.2.1), ok_bind]
    exact .goto .relTest hin rfl
  | relTest =>
    obtain ⟨hd, hlt, hholder, hn⟩ := hin
    rw [Machine.lockStep]
    split
    · next h1 => exact .goto .relLoad ⟨hn ▸ h1, hlt, hholder, hn⟩ rfl
    · next h1 => exact .goto .relOne ⟨by omega, hholder, by omega⟩ rfl
  | relLoad =>
    obtain ⟨hd, hlt, hholder, hn⟩ := hin
    have hmod : (m.holderRepeatNr i + 2 ^ 32 - 1) % 2 ^ 32 =
        m.depth m.sched.runningThread i - 1 := by
      rw [hn]; omega
    rw [Machine.lockStep, hmod]
    exact .goto (.relStore _) ⟨hd, hlt, hholder, hn, rfl⟩ rfl
  | relStore n =>
    obtain ⟨hd, hlt, hholder, -, rfl⟩ := hin
    exact .ret (by omega) (by omega) hholder rfl
  | relOne =>
    rw [Machine.lockStep, assert_of (decide_eq_true hin.2.2), ok_bind]
    exact .goto .relHolder hin rfl
  | relHolder =>
    obtain ⟨hd, -, hn⟩ := hin
    have hstep := Advances.code (m := m) (i := i) (p := .relHolder) (k := k) .relRepeat
      none (m.holderRepeatNr i) ⟨hd, rfl, hn⟩ rfl
    rwa [show (m.setHolder i none).setRepeat i (m.holderRepeatNr i) =
      m.setHolder i none from setRepeat_self _ i] at hstep
  | relRepeat =>
    obtain ⟨hd, hholder, -⟩ := hin
    have hstep := Advances.code (m := m) (i := i) (p := .relRepeat) (k := k) .relUp
      (m.holder i) 0 ⟨hd, hholder, rfl⟩ rfl
    rwa [setHolder_self] at hstep
  | relUp => exact absurd rfl hup

end Held

/-- A thread at `p` is about to test the value of `r` in `sema_down`, on its way to the client's
place `k`. -/
structure Pc.AtDown (r : SemaRef ι) (k : κ) (p : Pc ι κ) : Prop where
  client : p.client = k
  down : ∀ r', p.isDown r' → r' = r
  away : ∀ j, r ≠ .ofLock j → p.place j = .away
  place : ∀ j, r = .ofLock j → p.place j = .waiting ∨ p.place j = .code .acqDown
  after : ∀ j d, p.depthAfter j d = if r = .ofLock j then d + 1 else d

theorem atDown_down (r : SemaRef ι) (old : IntrStatus) (k : κ) :
    (Pc.down r old k).AtDown r k :=
  ⟨rfl, fun _ h => Eq.symm h, fun _ h => if_neg h, fun _ h => .inl (if_pos h), fun _ _ => rfl⟩

theorem atDown_acqDown (i : ι) (k : κ) : (Pc.lock i .acqDown k).AtDown (.ofLock i) k := by
  refine ⟨rfl, fun _ h => absurd h id, fun j h =>
    place_lock_of_ne (fun hj => h (congrArg _ hj.symm)) _ k,
    fun j h => ?_, fun j d => ?_⟩
  · obtain rfl : i = j := by simpa using h
    exact .inr (if_pos rfl)
  · simp only [Pc.depthAfter, SemaRef.ofLock.injEq]
    rfl

theorem atDown_run (i : ι) (k : κ) : (Pc.run k).AtDown (.bare i) k :=
  ⟨rfl, fun _ h => absurd h id, fun _ _ => rfl, fun _ h => absurd h (by simp),
    fun _ _ => (if_neg (by simp)).symm⟩

section Steps

variable {m : Machine ι κ δ}

theorem SyncInv.intr (h : SyncInv m) (st : IntrStatus) :
    SyncInv { m with sched := { m.sched with intrStatus := st } } :=
  ⟨h.sema.intr st, fun j => (h.lock j).frame rfl rfl rfl (fun _ => rfl) fun _ => .refl _⟩

theorem slept_ok (h : SyncInv m) {r : SemaRef ι} (old : IntrStatus) {k : κ} {s' : Sched}
    (hne : m.sched.runningThread ≠ m.sched.idleThread)
    (hpc : (m.pc m.sched.runningThread).AtDown r k) (hv : (m.sema r).value = 0)
    (hs' : Blocked .blocked m.sched s') :
    SyncInv (slept r old k m s') ∧ SyncFrame m (slept r old k m s') ∧
      (slept r old k m s').flag m.sched.runningThread = old := by
  have hcur : (slept r old k m s').pc m.sched.runningThread = .down r old k :=
    (slept_pc r old k m s' _).trans (if_pos rfl)
  refine ⟨⟨h.sema.slept hne hpc.down hv hs', fun j => ?_⟩, ?_, ?_⟩
  · refine (h.lock j).frame ?_ rfl rfl (fun _ => rfl) fun t => ?_
    · rw [slept_sema]
      split
      · next heq => rw [heq]
      · rfl
    · rw [slept_pc]
      split
      · next ht =>
        subst ht
        by_cases hr : r = .ofLock j
        · rw [show (Pc.down r old k).place j = .waiting from if_pos hr]
          exact .waiting (hpc.place j hr)
        · rw [hpc.away j hr, show (Pc.down r old k).place j = .away from if_neg hr]
          exact .refl _
      · exact .refl _
  · refine ⟨rfl, hs'.all, hs'.idle, fun t ht => (slept_pc r old k m s' t).trans (if_neg ht),
      fun _ _ => rfl, fun t _ => hs'.intrOf t, ?_, ?_, fun t _ hi hr => hs'.blocked t hi hr⟩
    · rw [hcur, hpc.client]
      rfl
    · rw [hcur]
      exact fun hrun => absurd hrun id
  · rw [Machine.flag, hcur]

/-- What taking the value in `sema_down` keeps: a thread that takes the value of a lock has the
lock. -/
theorem took_ok (h : SyncInv m) {r : SemaRef ι} (old : IntrStatus) {k : κ}
    (hne : m.sched.runningThread ≠ m.sched.idleThread)
    (hpc : (m.pc m.sched.runningThread).AtDown r k) (hv : (m.sema r).value = 1) :
    SyncInv (took r old k m) ∧ SyncFrame m (took r old k m) ∧
      (took r old k m).flag m.sched.runningThread = old := by
  have hcur : (took r old k m).pc m.sched.runningThread = r.afterDown k :=
    (took_pc r old k m _).trans (if_pos rfl)
  have hrun : ∀ t, t ≠ m.sched.runningThread → (took r old k m).pc t = m.pc t := fun t ht =>
    (took_pc r old k m t).trans (if_neg ht)
  refine ⟨⟨h.sema.took hne hpc.down, fun j => ?_⟩, ?_, ?_⟩
  · by_cases hr : r = .ofLock j
    · subst hr
      rcases h.lock j with hfree | ⟨t, ht⟩
      · refine .inr ⟨m.sched.runningThread, ?_, ?_, fun u hu => ?_⟩
        · rw [took_sema, if_pos rfl]
        · rw [hcur, show ((SemaRef.ofLock j).afterDown k).place j =
            .code .acqHolder from if_pos rfl]
          have hout := hfree.outside m.sched.runningThread
          refine ⟨?_, hfree.holder, hfree.repeatNr⟩
          rcases hpc.place j rfl with hp | hp <;> rw [hp] at hout <;> exact hout
        · rw [hrun u hu]
          exact hfree.outside u
      · rw [ht.value] at hv
        exact absurd hv Nat.zero_ne_one
    · refine (h.lock j).frame ?_ rfl rfl (fun _ => rfl) fun t => ?_
      · rw [took_sema, if_neg (Ne.symm hr)]
      · rw [took_pc]
        split
        · next ht =>
          subst ht
          rw [hpc.away j hr]
          cases r with
          | bare i => exact .refl _
          | ofLock i => exact .of_eq (place_lock_of_ne (fun hj => hr (congrArg _ hj.symm)) _ k).symm
        · exact .refl _
  · refine ⟨rfl, rfl, rfl, hrun, fun _ _ => rfl, fun t ht => ?_, ?_, fun _ => ?_,
      fun _ _ _ _ _ => rfl⟩
    · exact (if_neg ht).trans (if_neg ht).symm
    · rw [hcur, Pc.client_afterDown, hpc.client]
    · exact congrArg TaskStatus.isBlocked h.sema.sched.current
  · rw [Machine.flag, hcur]
    cases r <;> exact if_pos rfl

theorem downPass_ok (h : SyncInv m) {r : SemaRef ι} (old : IntrStatus) {k : κ}
    (hne : m.sched.runningThread ≠ m.sched.idleThread)
    (hpc : (m.pc m.sched.runningThread).AtDown r k) :
    ∃ m', m.downPass r old k = .ok m' ∧ SyncInv m' ∧ SyncFrame m m' ∧
      (∀ j, m'.depthOf m.sched.runningThread j = m.depthOf m.sched.runningThread j) ∧
      m'.flag m.sched.runningThread = old := by
  rcases Nat.le_one_iff_eq_zero_or_eq_one.mp (h.sema.value r) with hv | hv
  · obtain ⟨s', hs', heq⟩ := downPass_zero h.sema old k hv
    obtain ⟨hinv, hframe, hflag⟩ := slept_ok h old hne hpc hv hs'
    refine ⟨_, heq, hinv, hframe, fun j => ?_, hflag⟩
    rw [Machine.depthOf, Machine.depthOf, slept_pc, if_pos rfl, hpc.after]
    rfl
  · obtain ⟨hinv, hframe, hflag⟩ := took_ok h old hne hpc hv
    refine ⟨_, downPass_one old k hv, hinv, hframe, fun j => ?_, hflag⟩
    rw [Machine.depthOf, Machine.depthOf, took_pc, if_pos rfl, hpc.after]
    cases r with
    | bare i => exact (if_neg (by simp)).symm
    | ofLock i =>
      simp only [SemaRef.afterDown, Pc.depthAfter, SemaRef.ofLock.injEq]
      rfl

theorem semaDown_ok (h : SyncInv m) {r : SemaRef ι} {k : κ}
    (hne : m.sched.runningThread ≠ m.sched.idleThread)
    (hpc : (m.pc m.sched.runningThread).AtDown r k)
    (hflag : m.flag m.sched.runningThread = m.sched.intrStatus) :
    ∃ m', m.semaDown r k = .ok m' ∧ SyncInv m' ∧ SyncFrame m m' ∧ Keeps m m' := by
  obtain ⟨m', heq, hinv, hframe, hdepth, hflag'⟩ :=
    downPass_ok (h.intr .off) m.sched.intrStatus hne hpc
  refine ⟨m', heq, hinv, ⟨hframe.data, hframe.all, hframe.idle, hframe.pc, hframe.depth,
    fun t ht => ?_, hframe.client, hframe.returned, hframe.blocked⟩, hdepth,
    hflag'.trans hflag.symm⟩
  exact (hframe.intrOf t ht).trans ((if_neg ht).trans (if_neg ht).symm)

/-- What `sema_up` of `r` does: it sets the value to 1 and wakes at most one thread, which is in
`sema_down`. -/
structure Upped (r : SemaRef ι) (m m' : Machine ι κ δ) : Prop where
  inv : SemaInv m'
  value : (m'.sema r).value = 1
  other : ∀ r', r' ≠ r → m'.sema r' = m.sema r'
  holder : m'.holder = m.holder
  repeatNr : m'.holderRepeatNr = m.holderRepeatNr
  depth : m'.depth = m.depth
  pc : m'.pc = m.pc
  data : m'.data = m.data
  running : m'.sched.runningThread = m.sched.runningThread
  idle : m'.sched.idleThread = m.sched.idleThread
  all : m'.sched.threadAllList = m.sched.threadAllList
  status : ∀ t, (m.pc t).isRun → m'.sched.status t = m.sched.status t
  intrOf : ∀ t, m'.sched.intrOf t = m.sched.intrOf t

theorem up_ok (h : SemaInv m) {r : SemaRef ι} (hv : (m.sema r).value = 0) :
    ∃ m', m.up r = .ok m' ∧ Upped r m m' := by
  cases hw : (m.sema r).waiters with
  | nil =>
    refine ⟨_, up_nil hv hw, h.upped hw, ?_, fun r' hr => Function.update_of_ne hr _ _,
      rfl, rfl, rfl, rfl, rfl, rfl, rfl, rfl, fun _ _ => rfl, fun _ => rfl⟩
    exact congrArg Semaphore.value (Function.update_self r _ m.sema)
  | cons b rest =>
    refine ⟨_, up_cons h hv hw, h.uppedWaking hw, ?_, fun r' hr => Function.update_of_ne hr _ _,
      rfl, rfl, rfl, rfl, rfl, rfl, rfl, rfl, fun t ht => ?_, fun _ => rfl⟩
    · exact congrArg Semaphore.value (Function.update_self r _ m.sema)
    · have hdown := ((h.waiters r b).mp (by rw [hw]; exact List.mem_cons_self)).1
      refine (unblocked_status b t m.sched).trans (if_neg ?_)
      rintro rfl
      exact Pc.not_isRun_of_isDown hdown ht

theorem relUp_ok (h : SyncInv m) {i : ι} {k : κ}
    (hpc : m.pc m.sched.runningThread = .lock i .relUp k) :
    ∃ m', m.lockStep i k .relUp = .ok m' ∧ SyncInv m' ∧ SyncFrame m m' ∧ Keeps m m' := by
  have hplace : ((m.pc m.sched.runningThread).place i) = .code .relUp := by
    rw [hpc]
    exact if_pos rfl
  have hheld : LockHeld m i m.sched.runningThread := (h.lock i).held (by rw [hplace]; exact id)
  have hin := hheld.inside
  rw [hplace] at hin
  obtain ⟨hd, hholder, hn⟩ := hin
  have hne := h.sema.ne_idle_of_not_isRun (by rw [hpc]; exact id :
    ¬ (m.pc m.sched.runningThread).isRun)
  have hgoto : SemaInv (m.goto (.run k)) :=
    h.sema.goto hne (fun r => by rw [hpc]; exact id) fun r => id
  set m₁ := (m.setDepth i (m.depth m.sched.runningThread i - 1)).goto (.run k)
  have hsema : SemaInv m₁ := ⟨hgoto.sched, hgoto.idle, hgoto.unborn, hgoto.asleep, hgoto.nodup,
    hgoto.waiters, hgoto.woken, hgoto.value, hgoto.wakeup⟩
  obtain ⟨m', heq, hup⟩ := up_ok (r := .ofLock i) hsema hheld.value
  have hpc' : ∀ t, m'.pc t = if t = m.sched.runningThread then .run k else m.pc t := fun t => by
    rw [hup.pc]
    exact Function.update_apply ..
  have hdepth : ∀ t j, m'.depth t j = if t = m.sched.runningThread then
      (if j = i then 0 else m.depth t j) else m.depth t j := fun t j => by
    rw [hup.depth]
    show Function.update m.depth m.sched.runningThread _ t j = _
    rw [Function.update_apply]
    split
    · next ht => rw [ht, Function.update_apply, hd]
    · rfl
  refine ⟨m', heq, ⟨hup.inv, fun j => ?_⟩, ?_, fun j => ?_, ?_⟩
  · by_cases hj : j = i
    · subst hj
      refine .inl ⟨hup.value, (congrFun hup.holder j).trans hholder,
        (congrFun hup.repeatNr j).trans hn, fun t => ?_⟩
      rw [hpc', hdepth]
      split
      · exact if_pos rfl
      · next ht => exact hheld.outside t ht
    · refine (h.lock j).frame (congrArg _ (hup.other _ (by simpa using hj)))
        (congrFun hup.holder j) (congrFun hup.repeatNr j) (fun t => ?_) fun t => ?_
      · rw [hdepth, if_neg hj, ite_self]
      · rw [hpc']
        split
        · next ht =>
          rw [ht, hpc]
          exact .of_eq (place_lock_of_ne hj _ k)
        · exact .refl _
  · refine ⟨hup.data, hup.all, hup.idle, fun t ht => (hpc' t).trans (if_neg ht),
      fun t ht => funext fun j => (hdepth t j).trans (if_neg ht), fun t _ => hup.intrOf t, ?_,
      fun _ => ?_, fun t ht _ htr _ => hup.status t ?_⟩
    · rw [hpc', if_pos rfl, hpc]
      rfl
    · have hrun : m₁.pc m.sched.runningThread = .run k := Function.update_self ..
      rw [hup.status _ (by rw [hrun]; trivial)]
      exact congrArg TaskStatus.isBlocked h.sema.sched.current
    · have hrun : m₁.pc t = m.pc t := Function.update_of_ne htr ..
      rw [hrun]
      exact ht
  · rw [Machine.depthOf, Machine.depthOf, hpc', hdepth, if_pos rfl, if_pos rfl, hpc]
    by_cases hj : j = i
    · subst hj
      rw [if_pos rfl, hd]
      exact (if_pos rfl : (Pc.lock j .relUp k).depthAfter j 1 = _).symm
    · rw [if_neg hj]
      exact (if_neg (Ne.symm hj) : (Pc.lock i .relUp k).depthAfter j _ = _).symm
  · rw [Machine.flag, Machine.flag, hpc', if_pos rfl, hpc]
    exact hup.intrOf _

theorem edit_frame (h : SemaInv m) (i : ι) (holder : Option Nat) (n d : Nat) {p : Pc ι κ}
    (hclient : p.client = (m.pc m.sched.runningThread).client) :
    SyncFrame m (m.edit i holder n d p) := by
  refine ⟨rfl, rfl, rfl, fun t ht => (edit_pc ..).trans (if_neg ht), fun t ht => funext fun j =>
    (edit_depth ..).trans (if_neg ht), fun _ _ => rfl, ?_, fun _ => ?_, fun _ _ _ _ _ => rfl⟩
  · rw [edit_pc, if_pos rfl, hclient]
  · exact congrArg TaskStatus.isBlocked h.sched.current

theorem goto_eq_edit (m : Machine ι κ δ) (i : ι) (p : Pc ι κ) : m.goto p =
    m.edit i (m.holder i) (m.holderRepeatNr i) (m.depth m.sched.runningThread i) p := by
  simp only [Machine.edit, Machine.setHolder, Machine.setRepeat, Machine.setDepth,
    Function.update_eq_self]

/-- Storing into a lock and moving on, outside `sema_down`, keeps the invariant of the
semaphores. -/
theorem SemaInv.edit (h : SemaInv m) (i : ι) (holder : Option Nat) (n d : Nat) {p : Pc ι κ}
    (hne : m.sched.runningThread ≠ m.sched.idleThread)
    (hold : ∀ r, ¬ (m.pc m.sched.runningThread).isDown r) (hnew : ∀ r, ¬ p.isDown r) :
    SemaInv (m.edit i holder n d p) := by
  have hgoto := h.goto hne hold hnew
  exact ⟨hgoto.sched, hgoto.idle, hgoto.unborn, hgoto.asleep, hgoto.nodup, hgoto.waiters,
    hgoto.woken, hgoto.value, hgoto.wakeup⟩

/-- The running thread, which has not got lock `i`, goes to a place where it need not have it. -/
theorem LockInv.goto {i : ι} (h : LockInv m i) {p : Pc ι κ}
    (hold : Outside (m.depth m.sched.runningThread i) ((m.pc m.sched.runningThread).place i))
    (hnew : Outside (m.depth m.sched.runningThread i) (p.place i)) : LockInv (m.goto p) i := by
  have hout : ∀ t, Outside (m.depth t i) ((m.pc t).place i) →
      Outside ((m.goto p).depth t i) (((m.goto p).pc t).place i) := by
    intro t ht
    rw [goto_pc]
    split
    · next heq => rw [heq]; exact hnew
    · exact ht
  rcases h with hfree | ⟨t, ht⟩
  · exact .inl ⟨hfree.value, hfree.holder, hfree.repeatNr, fun t => hout t (hfree.outside t)⟩
  · refine .inr ⟨t, ht.value, ?_, fun u hu => hout u (ht.outside u hu)⟩
    rw [goto_pc, if_neg]
    · exact ht.inside
    · rintro rfl
      exact ht.inside.not_outside hold

theorem LockInv.goto_other {i : ι} (h : LockInv m i) {p : Pc ι κ}
    (hp : p.place i = (m.pc m.sched.runningThread).place i) : LockInv (m.goto p) i := by
  refine h.frame rfl rfl rfl (fun _ => rfl) fun t => ?_
  rw [goto_pc]
  split
  · next ht => rw [ht]; exact .of_eq hp.symm
  · exact .refl _

theorem lockStep_ok (h : SyncInv m) {i : ι} {p : LockPc} {k : κ}
    (hpc : m.pc m.sched.runningThread = .lock i p k) :
    ∃ m', m.lockStep i k p = .ok m' ∧ SyncInv m' ∧ SyncFrame m m' ∧ Keeps m m' := by
  have hplace : (m.pc m.sched.runningThread).place i = .code p := by
    rw [hpc]
    exact if_pos rfl
  have hne := h.sema.ne_idle_of_not_isRun (by rw [hpc]; exact id :
    ¬ (m.pc m.sched.runningThread).isRun)
  have hold : ∀ r, ¬ (m.pc m.sched.runningThread).isDown r := fun r => by rw [hpc]; exact id
  by_cases hup : p = .relUp
  · subst hup
    exact relUp_ok h hpc
  by_cases hout : Outside (m.depth m.sched.runningThread i) (.code p)
  · -- a thread without the lock is at one of the first two places of `lock_acquire`
    cases p with
    | acqTest =>
      have hholder : m.holder i ≠ some m.sched.runningThread := fun hh =>
        ((h.lock i).held_of_holder hh).inside.not_outside (hplace ▸ hout)
      refine ⟨m.goto (.lock i .acqDown k), ?_, ⟨h.sema.goto hne hold fun _ => id, fun j => ?_⟩, ?_,
        fun j => ?_, ?_⟩
      · rw [Machine.lockStep, if_pos hholder]
        rfl
      · by_cases hj : j = i
        · subst hj
          refine (h.lock j).goto (hplace ▸ hout) ?_
          rw [show (Pc.lock j .acqDown k).place j = .code .acqDown from if_pos rfl]
          exact hout
        · exact (h.lock j).goto_other (by rw [hpc, place_lock_of_ne hj, place_lock_of_ne hj])
      · rw [goto_eq_edit m i]
        exact edit_frame h.sema _ _ _ _ (by rw [hpc]; rfl)
      · rw [Machine.depthOf, Machine.depthOf, goto_pc, if_pos rfl, hpc]
        rfl
      · rw [Machine.flag, Machine.flag, goto_pc, if_pos rfl, hpc]
        rfl
    | acqDown =>
      refine semaDown_ok h hne (by rw [hpc]; exact atDown_acqDown i k) ?_
      rw [Machine.flag, hpc]
      exact if_pos rfl
    | _ => exact absurd hout id
  · have hheld := (h.lock i).held (hplace.symm ▸ hout)
    obtain ⟨holder, n, d, pc, heq, hin, hpc', hafter⟩ := lockStep_held hheld hpc hup
    have hnew : (∀ r, ¬ pc.isDown r) ∧ pc.client = k ∧ ∀ j, j ≠ i → pc.place j = .away := by
      rcases hpc' with rfl | ⟨q, rfl⟩
      · exact ⟨fun _ => id, rfl, fun _ _ => rfl⟩
      · exact ⟨fun _ => id, rfl, fun j hj => place_lock_of_ne hj q k⟩
    refine ⟨_, heq, ⟨h.sema.edit _ _ _ _ hne hold hnew.1, hheld.edit h.lock hin fun j hj => ?_⟩,
      edit_frame h.sema _ _ _ _ (by rw [hpc]; exact hnew.2.1), fun j => ?_, ?_⟩
    · rw [hnew.2.2 j hj, hpc, place_lock_of_ne hj]
    · rw [Machine.depthOf, Machine.depthOf, edit_pc, edit_depth, if_pos rfl, if_pos rfl, hpc]
      by_cases hj : j = i
      · subst hj
        rw [if_pos rfl, hafter]
        exact (if_pos rfl : (Pc.lock j p k).depthAfter j _ = _).symm
      · have hij : (i = j) = False := eq_false (Ne.symm hj)
        rcases hpc' with rfl | ⟨q, rfl⟩ <;> simp only [Pc.depthAfter, if_neg hj, hij, if_false]
    · rw [Machine.flag, Machine.flag, edit_pc, if_pos rfl, hpc]
      rcases hpc' with rfl | ⟨q, rfl⟩ <;> rfl

/-- A step of the running thread inside `thread/sync.c`: no assertion fails and the invariant is
kept. -/
theorem syncStep_ok (h : SyncInv m) (hpc : ¬ (m.pc m.sched.runningThread).isRun) :
    ∃ m', m.syncStep = .ok m' ∧ SyncInv m' ∧ SyncFrame m m' ∧ Keeps m m' := by
  cases hp : m.pc m.sched.runningThread with
  | run k => rw [hp] at hpc; exact absurd trivial hpc
  | down r old k =>
    obtain ⟨m', heq, hinv, hframe, hdepth, hflag⟩ := downPass_ok h old
      (h.sema.ne_idle_of_not_isRun hpc) (by rw [hp]; exact atDown_down r old k)
    refine ⟨m', ?_, hinv, hframe, hdepth, hflag.trans ?_⟩
    · rw [Machine.syncStep, hp]
      exact heq
    · rw [Machine.flag, hp]
  | lock i p k =>
    rw [Machine.syncStep, hp]
    exact lockStep_ok h hp

end Steps

end OriginOS
