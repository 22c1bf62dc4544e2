import Mathlib.Data.List.Nodup
import OriginOS.Thread.MachineSteps
import OriginOS.Thread.SchedRuns

/-! The runs of threads that use one semaphore, or one lock in a nested way, in any interleaving. -/

namespace OriginOS

open Lib Sched

variable {ι κ δ : Type}

def Booted (s : Sched) : Prop := ∃ (boot : Sched) (idlePage : Nat), idlePage ≠ 0 ∧
  boot.runningThread ≠ 0 ∧ idlePage ≠ boot.runningThread ∧ threadInit idlePage boot = .ok s

theorem Booted.inv {s : Sched} (h : Booted s) : s.Inv := by
  obtain ⟨boot, idlePage, h0, hmain, hne, heq⟩ := h
  obtain ⟨s', hs', hinv, -⟩ := threadInit_ok h0 hmain hne
  exact Except.ok.inj (heq.symm.trans hs') ▸ hinv

theorem Booted.eq_running {s : Sched} (h : Booted s) {t : Nat} (ht : t ∈ s.threadAllList)
    (hti : t ≠ s.idleThread) : t = s.runningThread := by
  obtain ⟨boot, idlePage, h0, hmain, hne, heq⟩ := h
  obtain ⟨s', hs', -, hall, -, hrun, hidle⟩ := threadInit_ok h0 hmain hne
  obtain rfl : s = s' := Except.ok.inj (heq.symm.trans hs')
  rw [hall, List.mem_pair, ← hidle, ← hrun] at ht
  exact ht.resolve_right hti

/-- The machine after `thread_init`, `lock_init` of its locks and `sema_init` of its binary
semaphores, with every thread, created or to come, at a place where the client may start. -/
structure Fresh (start : κ → Prop) (m : Machine ι κ δ) : Prop where
  booted : Booted m.sched
  lock : ∀ i, m.sema (.ofLock i) = semaInit 1
  bare : ∀ i, m.sema (.bare i) = semaInit 0 ∨ m.sema (.bare i) = semaInit 1
  holder : ∀ i, m.holder i = none
  repeatNr : ∀ i, m.holderRepeatNr i = 0
  pc : ∀ t, ∃ k, start k ∧ m.pc t = .run k
  depth : ∀ t i, m.depth t i = 0
  woken : ∀ r, m.woken r = []

namespace Fresh

variable {start : κ → Prop} {m : Machine ι κ δ}

theorem isRun (h : Fresh start m) (t : Nat) : (m.pc t).isRun := by
  obtain ⟨k, -, hk⟩ := h.pc t
  rw [hk]
  trivial

theorem sema (h : Fresh start m) (r : SemaRef ι) :
    m.sema r = semaInit 0 ∨ m.sema r = semaInit 1 := by
  cases r with
  | bare i => exact h.bare i
  | ofLock i => exact .inr (h.lock i)

theorem waiters (h : Fresh start m) (r : SemaRef ι) : (m.sema r).waiters = [] := by
  rcases h.sema r with hr | hr <;> rw [hr] <;> rfl

theorem syncInv [DecidableEq ι] (h : Fresh start m) : SyncInv m := by
  refine ⟨⟨h.booted.inv, h.isRun _, fun t _ => h.isRun t, fun t ht => absurd (h.isRun t) ht,
    fun r => ?_, fun r t => ?_, fun r t => ?_, fun r => ?_, fun r _ hw => ?_⟩, fun i => ?_⟩
  · rw [h.waiters]
    exact List.nodup_nil
  · rw [h.waiters]
    exact ⟨fun mem => absurd mem List.not_mem_nil, fun hd =>
      absurd hd.1 (Pc.not_isDown_of_isRun (h.isRun t) r)⟩
  · rw [h.woken]
    exact ⟨fun mem => absurd mem List.not_mem_nil, fun hd =>
      absurd hd.1 (Pc.not_isDown_of_isRun (h.isRun t) r)⟩
  · rcases h.sema r with hr | hr <;> rw [hr]
    · exact Nat.zero_le 1
    · exact Nat.le_refl 1
  · exact absurd (h.waiters r) hw
  · refine .inl ⟨by rw [h.lock]; rfl, h.holder i, h.repeatNr i, fun t => ?_⟩
    obtain ⟨k, -, hk⟩ := h.pc t
    rw [hk]
    exact h.depth t i

theorem depthOf [DecidableEq ι] (h : Fresh start m) (t : Nat) (i : ι) : m.depthOf t i = 0 := by
  obtain ⟨k, -, hk⟩ := h.pc t
  rw [Machine.depthOf, hk]
  exact h.depth t i

end Fresh

/-- The system of the machine with client `C`, whose data starts as `init` says. -/
def Client.system {α β : Type} [DecidableEq ι] (C : Client ι κ δ α β) (init : δ → Prop) :
    System (Machine ι κ δ) (MachAct κ α β) Panic where
  init m := Fresh C.start m ∧ init m.data
  guard := C.Enabled
  exec := C.step

instance Client.decidableEnabled {α β : Type} (C : Client ι κ δ α β)
    [∀ t k s d a, Decidable (C.guard t k s d a)] [DecidablePred C.start] (m : Machine ι κ δ)
    (a : MachAct κ α β) : Decidable (C.Enabled m a) :=
  match a with
  | .tick | .irq _ => inferInstanceAs (Decidable (_ = _))
  | .idleBlock | .idleHlt => inferInstanceAs (Decidable (_ = _))
  | .start _ _ _ => inferInstanceAs (Decidable (_ ∧ _ ∧ _))
  | .client a =>
    match hp : m.pc m.sched.runningThread with
    | .run k => decidable_of_iff (m.sched.runningThread ≠ m.sched.idleThread ∧
        C.guard m.sched.runningThread k m.sched m.data a) (by simp [Client.Enabled, hp])
    | .down .. => .isFalse (by simp [Client.Enabled, hp])
    | .lock .. => .isFalse (by simp [Client.Enabled, hp])
  | .sync =>
    match hp : m.pc m.sched.runningThread with
    | .run _ => .isFalse (by simp [Client.Enabled, hp])
    | .down .. => .isTrue (by simp [Client.Enabled, hp])
    | .lock .. => .isTrue (by simp [Client.Enabled, hp])

/-- The machine after `thread_init` on the boot thread, with all semaphores free. -/
def freshMachine (k : κ) (d : δ) : Machine ι κ δ where
  sched := bootState.sched
  sema _ := semaInit 1
  holder _ := none
  holderRepeatNr _ := 0
  pc _ := .run k
  data := d
  depth _ _ := 0
  woken _ := []

theorem freshMachine_fresh (start : κ → Prop) {k : κ} (hk : start k) (d : δ) :
    Fresh start (freshMachine k d : Machine ι κ δ) :=
  ⟨⟨bootSched, 0xc0100000, by decide, by decide, by decide, rfl⟩, fun _ => rfl, fun _ => .inr rfl,
    fun _ => rfl, fun _ => rfl, fun _ => ⟨k, hk, rfl⟩, fun _ _ => rfl, fun _ => rfl⟩

theorem freshMachine_reachable {α β : Type} [DecidableEq ι] (C : Client ι κ δ α β)
    {init : δ → Prop} {k : κ} (hk : C.start k) {d : δ} (hd : init d) :
    (C.system init).Reachable (freshMachine k d) :=
  System.Reachable.init (S := C.system init) ⟨freshMachine_fresh C.start hk d, hd⟩

theorem quiet_intr {m : Machine ι κ δ} (h : SemaInv m) (st : IntrStatus) :
    Quiet m (intrSetStatus st m.sched) :=
  ⟨h.sched.intr st, rfl, rfl, fun _ _ _ => rfl⟩

theorem intrOf_intrSetStatus (s : Sched) (st : IntrStatus) {t : Nat} (ht : t ≠ s.runningThread) :
    (intrSetStatus st s).intrOf t = s.intrOf t :=
  (if_neg ht).trans (if_neg ht).symm

theorem quiet_refl {m : Machine ι κ δ} (h : SemaInv m) : Quiet m m.sched :=
  ⟨h.sched, rfl, rfl, fun _ _ _ => rfl⟩

/-! ### One semaphore -/

/-- What a thread does with the semaphore; between the calls it may switch interrupts. -/
inductive SemaAct where
  | intr (status : IntrStatus)
  | semaDown
  | semaUp
deriving DecidableEq, Repr

/-- Threads that call `sema_down` and `sema_up` on one binary semaphore. -/
def semaClient : Client Unit Unit Unit SemaAct Empty where
  start _ := True
  guard _ _ _ _ _ := True
  exec a _ _ s _ := match a with
    | .intr status => pure (intrSetStatus status s, (), (), none)
    | .semaDown => pure (s, (), (), some (.semaDown ()))
    | .semaUp => pure (s, (), (), some (.semaUp ()))
  handler b := nomatch b

instance (t : Nat) (k : Unit) (s : Sched) (d : Unit) (a : SemaAct) :
    Decidable (semaClient.guard t k s d a) :=
  .isTrue trivial

instance : DecidablePred semaClient.start := fun _ => .isTrue trivial

def semaSystem : System (Machine Unit Unit Unit) (MachAct Unit SemaAct Empty) Panic :=
  semaClient.system fun _ => True

instance (m : Machine Unit Unit Unit) (a : MachAct Unit SemaAct Empty) :
    Decidable (semaSystem.guard m a) :=
  semaClient.decidableEnabled m a

/-- A step that does not fail keeps the invariant; a `sema_up` of a semaphore whose value is not 0
fails. -/
theorem semaSystem_step {m m' : Machine Unit Unit Unit} {a : MachAct Unit SemaAct Empty}
    (h : SyncInv m) (hstep : semaSystem.Step m a m') : SyncInv m' := by
  have hen : semaClient.Enabled m a := hstep.1
  rcases a.kernel_or with hk | ⟨b, rfl⟩ | ⟨a, rfl⟩
  · obtain ⟨m₁, heq, hinv, -⟩ := semaClient.step_kernel h hk hen
    exact hstep.eq_of_ok heq ▸ hinv
  · cases b
  · obtain ⟨hne, k, hpc, -⟩ := hen
    cases a with
    | intr status =>
      obtain ⟨m₁, heq, hmoved⟩ := semaClient.step_client h (a := .intr status) hne hpc rfl
        (quiet_intr h.sema status) (fun t ht => intrOf_intrSetStatus m.sched status ht)
        (fun _ hc => by simp at hc)
      exact hstep.eq_of_ok heq ▸ hmoved.inv
    | semaDown =>
      obtain ⟨m₁, heq, hmoved⟩ := semaClient.step_client h (a := .semaDown) hne hpc rfl
        (quiet_refl h.sema) (fun _ _ => rfl)
        (fun call hc => ⟨rfl, Option.some.inj hc ▸ trivial⟩)
      exact hstep.eq_of_ok heq ▸ hmoved.inv
    | semaUp =>
      by_cases hv : (m.sema (.bare ())).value = 0
      · obtain ⟨m₁, heq, hmoved⟩ := semaClient.step_client h (a := .semaUp) hne hpc rfl
          (quiet_refl h.sema) (fun _ _ => rfl)
          (fun call hc => ⟨rfl, Option.some.inj hc ▸ hv⟩)
        exact hstep.eq_of_ok heq ▸ hmoved.inv
      · have hfail : semaClient.step (.client .semaUp) m =
            .error ⟨"./thread/sync.c", 45, "sema_up", "psema->value == 0"⟩ := by
          simp only [Client.step, Client.clientStep, hpc]
          exact up_error hv
        cases hstep.2.symm.trans hfail

theorem semaSystem_inv {m : Machine Unit Unit Unit} (h : semaSystem.Reachable m) : SyncInv m :=
  h.invariant (fun _ (hi : Fresh _ _ ∧ _) => hi.1.syncInv) fun _ _ _ hs hstep =>
  semaSystem_step hs hstep

theorem SemaInv.awake {m : Machine ι κ δ} (h : SemaInv m) {r : SemaRef ι} {t : Nat}
    (ht : t ∈ m.woken r) : (m.pc t).isDown r ∧
      (m.sched.status t = .ready ∨ m.sched.status t = .runing) := by
  obtain ⟨hd, hb⟩ := (h.woken r t).mp ht
  refine ⟨hd, ?_⟩
  have hall : t ∈ m.sched.threadAllList := by
    by_contra hne
    exact Pc.not_isRun_of_isDown hd (h.unborn t hne)
  by_contra hne
  rw [not_or] at hne
  rw [isBlocked_of hne.2 hne.1 (h.sched.alive t hall)] at hb
  exact absurd hb (by decide)

/-- No wakeup is lost: while the semaphore is free and threads wait for it, some thread that
`sema_up` took off the waiters is ready or running inside `sema_down` and has not tested the value
again; and a thread blocked inside `sema_down` is on the waiters list once. -/
theorem no_lost_wakeup (m : Machine Unit Unit Unit) (h : semaSystem.Reachable m) :
    ((m.sema (.bare ())).value = 1 → (m.sema (.bare ())).waiters ≠ [] →
      ∃ t ∈ m.woken (.bare ()), (m.pc t).isDown (.bare ()) ∧
        (m.sched.status t = .ready ∨ m.sched.status t = .runing)) ∧
    ∀ t, (m.pc t).isDown (.bare ()) → m.sched.status t = .blocked →
      (m.sema (.bare ())).waiters.count t = 1 := by
  have hinv := (semaSystem_inv h).sema
  refine ⟨fun hv hw => ?_, fun t hd hb => ?_⟩
  · obtain ⟨t, ht⟩ := List.exists_mem_of_ne_nil _ (hinv.wakeup _ hv hw)
    exact ⟨t, ht, hinv.awake ht⟩
  · exact List.count_eq_one_of_mem (hinv.nodup _) ((hinv.waiters _ t).mpr ⟨hd, hb⟩)

/-- The main thread takes the semaphore and waits for it, thread `1` waits for it, and thread `2`
gives it back. -/
def wakingActs : List (MachAct Unit SemaAct Empty) :=
  [.start 1 10 (), .start 2 10 (), .client .semaDown, .client .semaDown, .idleBlock,
    .client .semaDown, .client .semaUp]

/-- The state after `wakingActs`: the semaphore is free, thread `1` waits for it, and the main
thread is ready to test the value. -/
def waking : Machine Unit Unit Unit :=
  (semaSystem.replay wakingActs (freshMachine () ())).getD (freshMachine () ())

theorem no_lost_wakeup_waking :
    ((waking.sema (.bare ())).value = 1 ∧ (waking.sema (.bare ())).waiters = [1]) ∧
    (((waking.sema (.bare ())).value = 1 → (waking.sema (.bare ())).waiters ≠ [] →
      ∃ t ∈ waking.woken (.bare ()), (waking.pc t).isDown (.bare ()) ∧
        (waking.sched.status t = .ready ∨ waking.sched.status t = .runing)) ∧
    ∀ t, (waking.pc t).isDown (.bare ()) → waking.sched.status t = .blocked →
      (waking.sema (.bare ())).waiters.count t = 1) :=
  ⟨by decide, no_lost_wakeup waking (System.Reachable.replay (S := semaSystem)
    (freshMachine_reachable semaClient (k := ()) (d := ()) trivial trivial) wakingActs rfl)⟩

/-! ### One lock -/

/-- What a thread does with the lock; between the calls it may switch interrupts. -/
inductive LockAct where
  | intr (status : IntrStatus)
  | lockAcquire
  | lockRelease
deriving DecidableEq, Repr

/-- Threads that call `lock_acquire` and `lock_release` on one lock in a nested way. The place of a
thread counts the calls of `lock_acquire` that it has yet to match, so it releases only what it
holds. -/
def lockClient : Client Unit Nat Unit LockAct Empty where
  start k := k = 0
  guard _ k _ _ a := a = .lockRelease → 0 < k
  exec a _ k s _ := match a with
    | .intr status => pure (intrSetStatus status s, (), k, none)
    | .lockAcquire => pure (s, (), k + 1, some (.lockAcquire ()))
    | .lockRelease => pure (s, (), k - 1, some (.lockRelease ()))
  handler b := nomatch b

instance (t k : Nat) (s : Sched) (d : Unit) (a : LockAct) :
    Decidable (lockClient.guard t k s d a) :=
  inferInstanceAs (Decidable (a = .lockRelease → 0 < k))

instance : DecidablePred lockClient.start := fun k => inferInstanceAs (Decidable (k = 0))

def lockSystem : System (Machine Unit Nat Unit) (MachAct Nat LockAct Empty) Panic :=
  lockClient.system fun _ => True

instance (m : Machine Unit Nat Unit) (a : MachAct Nat LockAct Empty) :
    Decidable (lockSystem.guard m a) :=
  lockClient.decidableEnabled m a

/-- The step does not call `lock_acquire` at a nesting depth of `2 ^ 32 - 1`, where the `uint32_t`
`holder_repeat_nr` would wrap. -/
def NestingFits (m : Machine Unit Nat Unit) (a : MachAct Nat LockAct Empty) : Prop :=
  a = .client .lockAcquire → m.depth m.sched.runningThread () + 1 < 2 ^ 32

/-- Thread `t` is between the return of its outermost `lock_acquire` and the call of the matching
`lock_release`: it has the lock now and will have it when it is back in its own code. -/
def Machine.InSection (m : Machine Unit Nat Unit) (t : Nat) : Prop :=
  0 < m.depth t () ∧ 0 < m.depthOf t ()

structure LockSound (m : Machine Unit Nat Unit) : Prop where
  exclusive : ∀ t u, m.InSection t → m.InSection u → t = u
  holder : ∀ t, m.InSection t → m.holder () = some t
  repeatNr : ∀ t, m.InSection t → m.holderRepeatNr () = m.depth t ()
  value : (m.sema (.ofLock ())).value = 0 ∨ (m.sema (.ofLock ())).value = 1
  tag : ∀ t, m.sched.threadReadyList.count t + (m.sema (.ofLock ())).waiters.count t ≤ 1

/-- The invariant of the lock's runs: the place of a thread counts how often it has the lock. -/
structure LockRunInv (m : Machine Unit Nat Unit) : Prop where
  sync : SyncInv m
  nested : ∀ t ∈ m.sched.threadAllList, m.depthOf t () = (m.pc t).client
  unborn : ∀ t, t ∉ m.sched.threadAllList → m.depthOf t () = 0

namespace LockRunInv

variable {m m' : Machine Unit Nat Unit}

theorem frame (h : LockRunInv m) (hinv : SyncInv m') (hframe : Frame lockClient.start m m') :
    LockRunInv m' := by
  refine ⟨hinv, fun t ht => ?_, fun t ht => ?_⟩
  · rw [hframe.depthOf]
    by_cases hold : t ∈ m.sched.threadAllList
    · rw [hframe.client t hold, h.nested t hold]
    · obtain ⟨k, hk, hpc⟩ := hframe.born t ht hold
      rw [h.unborn t hold, hpc]
      exact Eq.symm hk
  · rw [hframe.depthOf]
    exact h.unborn t fun hold => ht (hframe.all t hold)

theorem moved (h : LockRunInv m) {s' : Sched} {d : Unit} {k k' : Nat}
    {c : Option (SyncCall Unit)} (hpc : m.pc m.sched.runningThread = .run k)
    (hmoved : ClientMoved s' d k' c m m')
    (hk : c.elim k (·.after () k) = k') : LockRunInv m' := by
  have hcur : m.depthOf m.sched.runningThread () = k := by
    rw [h.nested _ h.sync.sema.sched.running_mem, hpc]
    rfl
  refine ⟨hmoved.inv, fun t ht => ?_, fun t ht => ?_⟩
  · rw [hmoved.depthOf]
    split
    · next heq => rw [heq, hcur, hmoved.client, hk]
    · next hne => rw [hmoved.pc t hne, h.nested t (hmoved.all ▸ ht)]
  · rw [hmoved.all] at ht
    have hne : t ≠ m.sched.runningThread := fun heq => ht (heq ▸ h.sync.sema.sched.running_mem)
    rw [hmoved.depthOf, if_neg hne, h.unborn t ht]

theorem step (h : LockRunInv m) {a : MachAct Nat LockAct Empty} (hen : lockClient.Enabled m a)
    (hfits : NestingFits m a) : ∃ m', lockClient.step a m = .ok m' ∧ LockRunInv m' := by
  rcases a.kernel_or with hk | ⟨b, rfl⟩ | ⟨a, rfl⟩
  · obtain ⟨m', heq, hinv, hframe⟩ := lockClient.step_kernel h.sync hk hen
    exact ⟨m', heq, h.frame hinv hframe⟩
  · exact nomatch b
  · obtain ⟨hne, k, hpc, hguard⟩ := hen
    have hdepth : m.depth m.sched.runningThread () = k := by
      have hnested := h.nested _ h.sync.sema.sched.running_mem
      rw [Machine.depthOf, hpc] at hnested
      exact hnested
    cases a with
    | intr status =>
      obtain ⟨m', heq, hmoved⟩ := lockClient.step_client h.sync (a := .intr status) hne hpc rfl
        (quiet_intr h.sync.sema status) (fun t ht => intrOf_intrSetStatus m.sched status ht)
        (fun _ hc => by simp at hc)
      exact ⟨m', heq, h.moved hpc hmoved rfl⟩
    | lockAcquire =>
      obtain ⟨m', heq, hmoved⟩ := lockClient.step_client h.sync (a := .lockAcquire) hne hpc rfl
        (quiet_refl h.sync.sema) (fun _ _ => rfl)
        (fun call hc => ⟨rfl, Option.some.inj hc ▸ hfits rfl⟩)
      exact ⟨m', heq, h.moved hpc hmoved rfl⟩
    | lockRelease =>
      have hpos : 0 < m.depth m.sched.runningThread () := hdepth ▸ hguard rfl
      obtain ⟨m', heq, hmoved⟩ := lockClient.step_client h.sync (a := .lockRelease) hne hpc rfl
        (quiet_refl h.sync.sema) (fun _ _ => rfl)
        (fun call hc => ⟨rfl, Option.some.inj hc ▸ hpos⟩)
      exact ⟨m', heq, h.moved hpc hmoved rfl⟩

theorem init (h : lockSystem.init m) : LockRunInv m := by
  obtain ⟨hfresh, -⟩ := h
  refine ⟨hfresh.syncInv, fun t _ => ?_, fun t _ => hfresh.depthOf t ()⟩
  obtain ⟨k, hk, hpc⟩ := hfresh.pc t
  rw [hfresh.depthOf, hpc]
  exact Eq.symm hk

end LockRunInv

/-- A thread in its section has the lock, at a place that makes `holder` and `holder_repeat_nr`
its own. -/
theorem Inside.section {t : Nat} {holder : Option Nat} {n d : Nat} {p : Pc Unit Nat}
    (h : Inside t holder n d (p.place ())) (hd : 0 < d) (hafter : 0 < p.depthAfter () d) :
    holder = some t ∧ n = d := by
  cases p with
  | run k => exact ⟨h.2.2.1, h.2.2.2⟩
  | down r old k =>
    cases r with
    | bare i => exact ⟨h.2.2.1, h.2.2.2⟩
    | ofLock i => exact absurd h id
  | lock i p k =>
    change Inside t holder n d (.code p) at h
    change 0 < p.after d at hafter
    cases p <;> simp only [Inside, LockPc.after] at h hafter <;>
      first | exact ⟨h.2.2.1, by omega⟩ | exact ⟨h.2.1, by omega⟩ | omega

theorem LockRunInv.sound {m : Machine Unit Nat Unit} (h : LockRunInv m) : LockSound m := by
  have hsema := h.sync.sema
  have hheld : ∀ t, m.InSection t → LockHeld m () t := by
    intro t ht
    refine (h.sync.lock ()).held fun hout => ?_
    have hd : m.depth t () = 0 := by
      cases hp : (m.pc t).place () with
      | away => rw [hp] at hout; exact hout
      | waiting => rw [hp] at hout; exact hout
      | code p => rw [hp] at hout; cases p <;> first | exact hout | exact absurd hout id
    exact absurd ht.1 (by omega)
  refine ⟨fun t u ht hu => ?_, fun t ht => ?_, fun t ht => ?_, ?_, fun t => ?_⟩
  · by_contra hne
    exact (hheld t ht).inside.not_outside ((hheld u hu).outside t hne)
  · exact ((hheld t ht).inside.section ht.1 ht.2).1
  · exact ((hheld t ht).inside.section ht.1 ht.2).2
  · exact Nat.le_one_iff_eq_zero_or_eq_one.mp (hsema.value _)
  · have hready := List.nodup_iff_count_le_one.mp hsema.sched.readyNodup t
    have hwait := List.nodup_iff_count_le_one.mp (hsema.nodup (.ofLock ())) t
    by_cases hr : t ∈ m.sched.threadReadyList
    · -- a ready thread is not blocked, so it is on no list of waiters
      have hw : t ∉ (m.sema (.ofLock ())).waiters := by
        intro mem
        have hst := ((hsema.sched.ready_iff t).mp hr).2
        rw [((hsema.waiters _ t).mp mem).2] at hst
        exact absurd hst (by decide)
      rw [List.count_eq_zero_of_not_mem hw]
      omega
    · rw [List.count_eq_zero_of_not_mem hr]
      omega

/-- In every run in which no thread nests its acquisitions `2 ^ 32` deep, the lock is sound in the
state reached and no further step of that kind fails an assertion. -/
theorem lock_correct (tr : List (Machine Unit Nat Unit × MachAct Nat LockAct Empty))
    (m : Machine Unit Nat Unit) (run : lockSystem.Run tr m)
    (hfits : ∀ p ∈ tr, NestingFits p.1 p.2) :
    LockSound m ∧ ∀ a, lockClient.Enabled m a → NestingFits m a →
      ∃ m', lockClient.step a m = .ok m' := by
  have hinv : LockRunInv m := by
    refine run.invariant_of (C := NestingFits) (fun _ => LockRunInv.init) ?_ hfits
    intro s a t hs hc hstep
    obtain ⟨t', heq, ht'⟩ := hs.step hstep.1 hc
    exact hstep.eq_of_ok heq ▸ ht'
  refine ⟨hinv.sound, fun a hen hc => ?_⟩
  obtain ⟨m', heq, -⟩ := hinv.step hen hc
  exact ⟨m', heq⟩

instance (m : Machine Unit Nat Unit) (a : MachAct Nat LockAct Empty) :
    Decidable (NestingFits m a) :=
  inferInstanceAs (Decidable (a = .client .lockAcquire → _))

/-- The main thread acquires the lock twice and is preempted; thread `1` finds it taken. -/
def contendedActs : List (MachAct Nat LockAct Empty) :=
  -- the parts have their types, so that no coercions between them are searched for
  ([.start 1 10 0, .client .lockAcquire, .sync, .sync, .sync, .sync, .sync,
    .client .lockAcquire, .sync, .sync, .sync, .client (.intr .on)] :
    List (MachAct Nat LockAct Empty)) ++
  (List.replicate 32 .tick : List (MachAct Nat LockAct Empty)) ++
  ([.idleBlock, .client .lockAcquire, .sync, .sync] : List (MachAct Nat LockAct Empty))

def contended : Machine Unit Nat Unit :=
  ((lockSystem.restrict NestingFits).replay contendedActs (freshMachine 0 ())).getD
    (freshMachine 0 ())

theorem contended_reachable : (lockSystem.restrict NestingFits).Reachable contended :=
  (System.Reachable.init (S := lockSystem.restrict NestingFits) (s := freshMachine 0 ())
    ⟨freshMachine_fresh lockClient.start rfl (), trivial⟩).replay_getD contendedActs
      (by decide +kernel)

theorem lock_correct_contended :
    (contended.InSection 0xc009e000 ∧ (contended.sema (.ofLock ())).waiters = [1]) ∧
    LockSound contended ∧ ∀ a, lockClient.Enabled contended a → NestingFits contended a →
      ∃ m', lockClient.step a contended = .ok m' := by
  obtain ⟨tr, run⟩ := contended_reachable
  exact ⟨⟨⟨by decide +kernel, by decide +kernel⟩, by decide +kernel⟩,
    lock_correct tr contended run.of_restrict.1 run.of_restrict.2⟩

/-- The main thread acquires the lock and is called back at depth 1. -/
def acquireActs : List (MachAct Nat LockAct Empty) :=
  [.client .lockAcquire, .sync, .sync, .sync, .sync, .sync]

def acquired : Machine Unit Nat Unit :=
  (lockSystem.replay acquireActs (freshMachine 0 ())).getD (freshMachine 0 ())

theorem acquired_reachable : lockSystem.Reachable acquired :=
  System.Reachable.replay (S := lockSystem)
    (freshMachine_reachable lockClient (k := 0) (d := ()) rfl trivial) acquireActs rfl

/-- The running thread has acquired the lock `n` times and is in its own code. -/
structure Nested (n : Nat) (m : Machine Unit Nat Unit) : Prop where
  awake : m.sched.runningThread ≠ m.sched.idleThread
  pc : m.pc m.sched.runningThread = .run n
  holder : m.holder () = some m.sched.runningThread
  repeatNr : m.holderRepeatNr () = n % 2 ^ 32
  depth : m.depth m.sched.runningThread () = n

theorem acquired_nested : Nested 1 acquired :=
  ⟨by decide, by decide, by decide, by decide, by decide⟩

theorem reachable_sync {m m' : Machine Unit Nat Unit} {p : LockPc} {k : Nat}
    (h : lockSystem.Reachable m) (hpc : m.pc m.sched.runningThread = .lock () p k)
    (heq : m.lockStep () k p = .ok m') : lockSystem.Reachable m' := by
  refine h.next (a := .sync) ⟨fun k' hk' => ?_, ?_⟩
  · rw [hpc] at hk'
    exact nomatch hk'
  · show m.syncStep = .ok m'
    rw [Machine.syncStep, hpc]
    exact heq

theorem Nested.succ {n : Nat} {m : Machine Unit Nat Unit} (h : Nested n m)
    (hm : lockSystem.Reachable m) : ∃ m', lockSystem.Reachable m' ∧ Nested (n + 1) m' := by
  let m₁ := (m.moved m.sched () (n + 1)).goto (.lock () .acqTest (n + 1))
  have h₁ : lockSystem.Reachable m₁ := by
    refine hm.next (a := .client .lockAcquire) ⟨⟨h.awake, n, h.pc, nofun⟩, ?_⟩
    show lockClient.step (.client .lockAcquire) m = _
    simp only [Client.step, Client.clientStep, h.pc]
    rfl
  have h₂ : lockSystem.Reachable (m₁.goto (.lock () .acqLoad (n + 1))) :=
    reachable_sync h₁ (Function.update_self ..) (if_neg (not_not.mpr h.holder))
  have h₃ := reachable_sync h₂ (Function.update_self ..) rfl
  have h₄ := reachable_sync h₃ (Function.update_self ..) rfl
  refine ⟨_, h₄, h.awake, Function.update_self .., h.holder, ?_, ?_⟩
  · show (m.holderRepeatNr () + 1) % 2 ^ 32 = (n + 1) % 2 ^ 32
    rw [h.repeatNr]
    omega
  · show Function.update m.depth m.sched.runningThread
      (Function.update (m.depth m.sched.runningThread) () _) m.sched.runningThread () = n + 1
    rw [Function.update_self, Function.update_self]
    exact congrArg (· + 1) h.depth

theorem nested_reachable (n : Nat) :
    ∃ m, lockSystem.Reachable m ∧ Nested (n + 1) m := by
  induction n with
  | zero => exact ⟨acquired, acquired_reachable, acquired_nested⟩
  | succ n ih =>
    obtain ⟨m, hm, hn⟩ := ih
    exact hn.succ hm

/-- After `2 ^ 32` nested acquisitions `holder_repeat_nr` is 0 in the section of the holder. -/
theorem repeat_wraps : ∃ (m : Machine Unit Nat Unit) (t : Nat), lockSystem.Reachable m ∧
    m.InSection t ∧ m.depth t () = 2 ^ 32 ∧ m.holderRepeatNr () = 0 := by
  obtain ⟨m, hm, hn⟩ := nested_reachable (2 ^ 32 - 1)
  have hdepth : m.depth m.sched.runningThread () = 2 ^ 32 := hn.depth
  refine ⟨m, m.sched.runningThread, hm, ⟨by rw [hdepth]; decide, ?_⟩, hdepth, hn.repeatNr⟩
  rw [Machine.depthOf, hn.pc, Pc.depthAfter, hdepth]
  decide

end OriginOS
