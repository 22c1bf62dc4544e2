import OriginOS.Device.Ide
import OriginOS.Thread.SyncRuns

/-! The completion protocol of `device/ide.c`: threads in `ide_read` and `ide_write` on the two
channels, and `intr_hd_handler`, which may run whenever interrupts are on. -/

namespace OriginOS.Completion

open Lib

/-- What happens on a channel: `cmd_out`, a `sema_up` of `disk_done` by the handler, and the return
of a `sema_down` of `disk_done`. -/
inductive IdeEvent where
  | cmd
  | up
  | down
deriving DecidableEq, Repr

/-- The field of `struct ide_channel` that the protocol uses; the lock and `disk_done` are the
machine's. `log` lists the events, latest last, and is not part of the code. -/
structure IdeChannel where
  expectingIntr : Bool
  log : List IdeEvent
deriving DecidableEq, Repr

def IdeChannel.record (channel : IdeChannel) (e : IdeEvent) : IdeChannel :=
  { channel with log := channel.log ++ [e] }

/-- A call of `ide_read` or, if `write`, of `ide_write`, with the loop's `secs_done`. -/
structure IdeCall where
  write : Bool
  ch : Fin 2
  devNo : Fin 2
  lba : Nat
  secCnt : Nat
  secsDone : Nat
deriving DecidableEq, Repr

namespace IdeCall

def name (c : IdeCall) : String :=
  ["sda", "sdb", "sdc", "sdd"].getD (c.ch.val * 2 + c.devNo.val) ""

def func (c : IdeCall) : String := if c.write then "ide_write" else "ide_read"

/-- The line of the `ASSERT`s at the start of the function. -/
def line (c : IdeCall) : Nat := if c.write then 171 else 136

def panicLine (c : IdeCall) : Nat := if c.write then 188 else 160

def secsOp (c : IdeCall) : Nat :=
  if c.secsDone + 256 ≤ c.secCnt then 256 else c.secCnt - c.secsDone

def advance (c : IdeCall) : IdeCall := { c with secsDone := c.secsDone + c.secsOp }

end IdeCall

/-- A place around `ide_read` and `ide_write`: outside, at the loop's test, before the two
statements of `cmd_out`, in `busy_wait`, before `sema_down`, and behind it. -/
inductive IdePc where
  | other
  | loop (c : IdeCall)
  | cmdOut (c : IdeCall)
  | issue (c : IdeCall)
  | busy (c : IdeCall)
  | down (c : IdeCall)
  | woken (c : IdeCall)
deriving DecidableEq, Repr

/-- What a thread does: switch interrupts or yield, call one of the functions, go on in it, or come
back from `busy_wait` with its result. -/
inductive IdeAct where
  | intr (status : IntrStatus)
  | yield
  | call (c : IdeCall)
  | next
  | ready (b : Bool)
deriving DecidableEq, Repr

def ideGuard : IdePc → IdeAct → Bool
  | .other, .intr _ | .other, .yield => true
  | .other, .call c => c.secsDone = 0
  | .busy _, .yield | .busy _, .ready _ => true
  | .loop _, .next | .cmdOut _, .next | .issue _, .next | .down _, .next | .woken _, .next => true
  | _, _ => false

abbrev IdeChannels := Fin 2 → IdeChannel

/-- The steps of `ide_read` and `ide_write`. They differ in where the `sema_down` stands: before
`busy_wait` and the data in `ide_read`, behind them in `ide_write`. -/
def ideExec (s : Sched) (d : IdeChannels) :
    IdePc → IdeAct → Except Panic (Sched × IdeChannels × IdePc × Option (SyncCall (Fin 2)))
  | .other, .intr status => pure (intrSetStatus status s, d, .other, none)
  | .other, .call c => do
    assert (c.lba ≤ maxLba) ⟨"./device/ide.c", c.line, c.func, "lba <= max_lba"⟩
    assert (c.secCnt > 0) ⟨"./device/ide.c", c.line, c.func, "sec_cnt > 0"⟩
    pure (s, d, .loop c, some (.lockAcquire c.ch))
  | .loop c, .next =>
    if c.secsDone < c.secCnt then do
      selectSector (c.lba + c.secsDone)
      pure (s, d, .cmdOut c, none)
    else pure (s, d, .other, some (.lockRelease c.ch))
  | .cmdOut c, .next =>
    let channel := { d c.ch with expectingIntr := true }
    pure (s, Function.update d c.ch (channel.record .cmd), .issue c, none)
  | .issue c, .next => pure (s, d, if c.write then .busy c else .down c, none)
  | .busy c, .ready true => pure (s, d, if c.write then .down c else .loop c.advance, none)
  | .busy c, .ready false =>
    panicSpin ⟨"./device/ide.c", c.panicLine, c.func,
      c.name ++ " read sector " ++ toString c.lba ++ " failed !\n"⟩
  | .down c, .next => pure (s, d, .woken c, some (.semaDown c.ch))
  | .woken c, .next =>
    pure (s, Function.update d c.ch ((d c.ch).record .down),
      if c.write then .loop c.advance else .busy c, none)
  | k, .yield => do pure (← threadYield s, d, k, none)
  | k, _ => pure (s, d, k, none)

def ideClient : Client (Fin 2) IdePc IdeChannels IdeAct Empty where
  start k := k = .other
  guard _ k _ _ a := ideGuard k a
  exec a _ k s d := ideExec s d k a
  handler b := nomatch b

abbrev IdeMachine := Machine (Fin 2) IdePc IdeChannels

def irqNo (ch : Fin 2) : Nat := 0x20 + 14 + ch.val

def intrHdHandler (irq : Nat) (m : IdeMachine) : Except Panic IdeMachine := do
  assert (irq = 0x2e ∨ irq = 0x2f)
    ⟨"./device/ide.c", 280, "intr_hd_handler", "irq_no == 0x2e || irq_no == 0x2f"⟩
  let chNo := Fin.ofNat 2 (irq - 0x2e)
  assert (irqNo chNo = irq)
    ⟨"./device/ide.c", 283, "intr_hd_handler", "channel->irq_no == irq_no"⟩
  if (m.data chNo).expectingIntr then
    let channel := { m.data chNo with expectingIntr := false }
    Machine.up (.bare chNo)
      { m with data := Function.update m.data chNo (channel.record .up) }
  else pure m

/-- An interrupt of a channel: the handler runs with interrupts off and `iret` restores the flag. -/
def hdIntr (irq : Nat) (m : IdeMachine) : Except Panic IdeMachine := do
  let m ← intrHdHandler irq { m with sched := intrDisable m.sched }
  pure { m with sched := intrSetStatus .on m.sched }

/-- A step of the threads and the timer, or an interrupt of a channel. -/
inductive IdeStep where
  | mach (a : MachAct IdePc IdeAct Empty)
  | hdIntr (irq : Nat)
deriving DecidableEq, Repr

/-- The two channels after `ide_init`, used by any number of threads. Interrupts `0x2e` and `0x2f`
come at any time when interrupts are on, asked for or not. -/
def ideSystem : System IdeMachine IdeStep Panic where
  init m := Fresh ideClient.start m ∧ (∀ ch, m.sema (.bare ch) = semaInit 0) ∧
    ∀ ch, m.data ch = ⟨false, []⟩
  guard m
    | .mach a => ideClient.Enabled m a
    | .hdIntr irq => m.sched.intrStatus = .on ∧ (irq = 0x2e ∨ irq = 0x2f)
  exec
    | .mach a => ideClient.step a
    | .hdIntr irq => hdIntr irq

/-- The events of `n` commands, each with its `sema_up` and its `sema_down`. -/
def rounds (n : Nat) : List IdeEvent := (List.replicate n [.cmd, .up, .down]).flatten

theorem rounds_succ (n : Nat) : rounds (n + 1) = rounds n ++ [.cmd, .up, .down] := by
  rw [rounds, List.replicate_succ', List.flatten_append]
  simp [rounds]
/-- How far the command in progress on a channel is: issued, or its `sema_down` has returned. -/
inductive Stage where
  | pending
  | taken
deriving DecidableEq, Repr

namespace IdePc

def inCall : IdePc → Option IdeCall
  | .other => none
  | .loop c | .cmdOut c | .issue c | .busy c | .down c | .woken c => some c

/-- How often the lock of channel `j` is held at the place. -/
def held (k : IdePc) (j : Fin 2) : Nat := k.inCall.elim 0 fun c => if c.ch = j then 1 else 0

/-- The stage of the command that a thread at the place has issued on channel `j`. -/
def stage (j : Fin 2) : IdePc → Option Stage
  | .issue c | .down c => if c.ch = j then some .pending else none
  | .busy c => if c.write = true ∧ c.ch = j then some .pending else none
  | .woken c => if c.ch = j then some .taken else none
  | _ => none

/-- The places that `lock_acquire` and `lock_release` return to. -/
def free : IdePc → Prop
  | .other | .loop _ => True
  | _ => False

theorem stage_of_free {k : IdePc} (h : k.free) (j : Fin 2) : k.stage j = none := by
  cases k with
  | other => rfl
  | loop c => rfl
  | _ => exact absurd h id

theorem held_of_stage {k : IdePc} {j : Fin 2} (h : k.stage j ≠ none) : k.held j = 1 := by
  cases k with
  | other => exact absurd rfl h
  | loop c => exact absurd rfl h
  | cmdOut c => exact absurd rfl h
  | issue c => exact if_pos (not_not.mp fun hne => h (if_neg hne))
  | busy c => exact if_pos (not_not.mp fun hne => h (if_neg fun hand => hne hand.2))
  | down c => exact if_pos (not_not.mp fun hne => h (if_neg hne))
  | woken c => exact if_pos (not_not.mp fun hne => h (if_neg hne))

end IdePc

abbrev IdePlace := Pc (Fin 2) IdePc

/-- A thread that waits in `sema_down` of `disk_done` has a pending command. -/
def stageOf (j : Fin 2) : IdePlace → Option Stage
  | .run k => k.stage j
  | .down _ _ (.woken c) => if c.ch = j then some .pending else none
  | _ => none

/-- Which calls the threads inside `thread/sync.c` made. -/
def Placed : IdePlace → Prop
  | .run _ => True
  | .down (.bare i) _ k => ∃ c : IdeCall, k = .woken c ∧ c.ch = i
  | .down (.ofLock _) _ k | .lock _ _ k => k.free

/-- The flag, the value of `disk_done` and the events of a channel on which no command is in
progress, or one at the given stage. -/
def Holds (d : IdeChannel) (v : Nat) : Option Stage → Prop
  | none => d.expectingIntr = false ∧ v = 0 ∧ ∃ n, d.log = rounds n
  | some .pending => ∃ n, (d.expectingIntr = true ∧ v = 0 ∧ d.log = rounds n ++ [.cmd]) ∨
    (d.expectingIntr = false ∧ v = 1 ∧ d.log = rounds n ++ [.cmd, .up])
  | some .taken => d.expectingIntr = false ∧ v = 0 ∧ ∃ n, d.log = rounds n ++ [.cmd, .up]

def diskDone (m : IdeMachine) (j : Fin 2) : Nat := (m.sema (.bare j)).value

/-- The channel is as the thread that has a command on it says, or at rest. -/
structure ChannelInv (m : IdeMachine) (j : Fin 2) : Prop where
  busy : ∀ t, stageOf j (m.pc t) ≠ none → Holds (m.data j) (diskDone m j) (stageOf j (m.pc t))
  rest : (∀ t, stageOf j (m.pc t) = none) → Holds (m.data j) (diskDone m j) none

structure IdeInv (m : IdeMachine) : Prop where
  sync : SyncInv m
  unborn : ∀ t, t ∉ m.sched.threadAllList → m.pc t = .run .other
  nested : ∀ t j, m.depthOf t j = (m.pc t).client.held j
  placed : ∀ t, Placed (m.pc t)
  channel : ∀ j, ChannelInv m j

namespace ChannelInv

variable {m m' : IdeMachine} {j : Fin 2}

theorem same (h : ChannelInv m j) (hstage : ∀ t, stageOf j (m'.pc t) = stageOf j (m.pc t))
    (hdata : m'.data j = m.data j) (hval : diskDone m' j = diskDone m j) : ChannelInv m' j := by
  refine ⟨fun t ht => ?_, fun hall => ?_⟩
  · rw [hstage] at ht ⊢
    rw [hdata, hval]
    exact h.busy t ht
  · rw [hdata, hval]
    exact h.rest fun t => (hstage t).symm.trans (hall t)

theorem moved (h : ChannelInv m j) {r : Nat} (hpc : ∀ t, t ≠ r → m'.pc t = m.pc t)
    (halone : ∀ t, t ≠ r → stageOf j (m.pc t) = none)
    (hstep : Holds (m.data j) (diskDone m j) (stageOf j (m.pc r)) →
      Holds (m'.data j) (diskDone m' j) (stageOf j (m'.pc r))) : ChannelInv m' j := by
  have hnow : Holds (m.data j) (diskDone m j) (stageOf j (m.pc r)) := by
    by_cases hr : stageOf j (m.pc r) = none
    · rw [hr]
      refine h.rest fun t => ?_
      by_cases ht : t = r
      · rw [ht, hr]
      · exact halone t ht
    · exact h.busy r hr
  have hthen := hstep hnow
  refine ⟨fun t ht => ?_, fun hall => ?_⟩
  · have htr : t = r := by
      by_contra hne
      rw [hpc t hne] at ht
      exact ht (halone t hne)
    rw [htr]
    exact hthen
  · rw [hall r] at hthen
    exact hthen

end ChannelInv

namespace IdeInv

variable {m m' : IdeMachine}

/-- A thread in the client's code or in `sema_down` of `disk_done` has the lock of the channel that
it is in a call on. -/
theorem lockHeld (h : IdeInv m) {t : Nat} {j : Fin 2}
    (hrun : (m.pc t).isRun ∨ ∃ i, (m.pc t).isDown (.bare i))
    (hk : (m.pc t).client.held j = 1) : LockHeld m j t := by
  have hdepth := h.nested t j
  rw [hk, Machine.depthOf] at hdepth
  refine (h.sync.lock j).held fun hout => ?_
  have hzero : m.depth t j = 0 ∧ (m.pc t).depthAfter j (m.depth t j) = m.depth t j := by
    cases hpc : m.pc t with
    | run k =>
      rw [hpc] at hout
      exact ⟨hout, rfl⟩
    | lock i p k =>
      rw [hpc] at hrun
      rcases hrun with hrun | ⟨i, hrun⟩ <;> exact absurd hrun id
    | down r old k =>
      rw [hpc] at hrun hout
      obtain ⟨i, hr⟩ := hrun.resolve_left id
      obtain rfl : r = .bare i := hr
      exact ⟨hout, rfl⟩
  omega

theorem held_of_stageOf {p : IdePlace} {j : Fin 2} (hp : Placed p) (h : stageOf j p ≠ none) :
    (p.isRun ∨ ∃ i, p.isDown (.bare i)) ∧ p.client.held j = 1 := by
  cases p with
  | run k => exact ⟨.inl trivial, IdePc.held_of_stage h⟩
  | lock i q k => exact absurd rfl h
  | down r old k =>
    cases r with
    | bare i =>
      obtain ⟨c, rfl, rfl⟩ := hp
      exact ⟨.inr ⟨c.ch, rfl⟩, if_pos (not_not.mp fun hne => h (if_neg hne))⟩
    | ofLock i =>
      cases k with
      | woken c => exact absurd hp id
      | _ => exact absurd rfl h

theorem alone (h : IdeInv m) {r : Nat} {j : Fin 2} (hr : LockHeld m j r) {t : Nat} (ht : t ≠ r) :
    stageOf j (m.pc t) = none := by
  by_contra hstage
  obtain ⟨hrun, hk⟩ := held_of_stageOf (h.placed t) hstage
  exact (h.lockHeld hrun hk).inside.not_outside (hr.outside t ht)

end IdeInv
namespace IdeInv

variable {m m' : IdeMachine}

theorem kernel (h : IdeInv m) {a : MachAct IdePc IdeAct Empty} (ha : a.isKernel = true)
    (hne : a ≠ .sync) (hen : ideClient.Enabled m a) :
    ∃ m', ideClient.step a m = .ok m' ∧ IdeInv m' := by
  obtain ⟨m', heq, hinv, hframe⟩ := ideClient.step_kernel h.sync ha hen
  obtain ⟨hsema, hstep⟩ := ideClient.step_kernel_pc ha hne hen heq
  have hpc : ∀ t, m'.pc t = m.pc t := by
    intro t
    rcases hstep t with hsame | ⟨hnew, k, hk, hpc⟩
    · exact hsame
    · rw [hpc, h.unborn t hnew, show k = .other from hk]
  refine ⟨m', heq, hinv, fun t ht => ?_, fun t j => ?_, fun t => ?_, fun j => ?_⟩
  · rw [hpc]
    exact h.unborn t fun hold => ht (hframe.all t hold)
  · rw [hframe.depthOf, hpc]
    exact h.nested t j
  · rw [hpc]
    exact h.placed t
  · refine (h.channel j).same (fun t => by rw [hpc]) (congrFun hframe.data j) ?_
    rw [diskDone, hsema]
    rfl

theorem of_sync (h : IdeInv m) (hinv : SyncInv m') (hframe : SyncFrame m m') (hkeeps : Keeps m m')
    (hplaced : Placed (m'.pc m.sched.runningThread)) (hchannel : ∀ j, ChannelInv m' j) :
    IdeInv m' := by
  refine ⟨hinv, fun t ht => ?_, fun t j => ?_, fun t => ?_, hchannel⟩
  · rw [hframe.all] at ht
    rw [hframe.pc t fun heq => ht (heq ▸ h.sync.sema.sched.running_mem)]
    exact h.unborn t ht
  · by_cases ht : t = m.sched.runningThread
    · rw [ht, hkeeps.depthOf, hframe.client]
      exact h.nested _ j
    · rw [Machine.depthOf, hframe.pc t ht, hframe.depth t ht]
      exact h.nested t j
  · by_cases ht : t = m.sched.runningThread
    · exact ht ▸ hplaced
    · rw [hframe.pc t ht]
      exact h.placed t

theorem stageOf_of_free {p : IdePlace} (hp : p.client.free) (j : Fin 2) : stageOf j p = none := by
  cases p with
  | run k => exact IdePc.stage_of_free hp j
  | lock i q k => rfl
  | down r old k =>
    cases k with
    | woken c => exact absurd hp id
    | _ => rfl

theorem sync_lock (h : IdeInv m) (hfree : (m.pc m.sched.runningThread).client.free)
    (hinv : SyncInv m') (hframe : SyncFrame m m') (hkeeps : Keeps m m') (hbare : BareKept m m') :
    IdeInv m' := by
  have hclient : (m'.pc m.sched.runningThread).client.free := hframe.client ▸ hfree
  refine h.of_sync hinv hframe hkeeps ?_ fun j => ?_
  · cases hpc : m'.pc m.sched.runningThread with
    | run k => trivial
    | lock i p k =>
      rw [hpc] at hclient
      exact hclient
    | down r old k =>
      rw [hpc] at hclient
      cases r with
      | ofLock i => exact hclient
      | bare i => exact absurd (by rw [hpc]; rfl) (hbare.2 i)
  · refine (h.channel j).same (fun t => ?_) (congrFun hframe.data j) ?_
    · by_cases ht : t = m.sched.runningThread
      · rw [ht, stageOf_of_free hclient, stageOf_of_free hfree]
      · rw [hframe.pc t ht]
    · exact congrArg Semaphore.value (hbare.1 j)

/-- A test of the value of `disk_done` in `sema_down`, on behalf of a call `c` whose command is
pending. `m₁` is `m` but for the place of the running thread. -/
theorem channel_downPass (h : IdeInv m) {m₁ : IdeMachine} {c : IdeCall} {old : IntrStatus}
    (hinv₁ : SemaInv m₁) (hsema : m₁.sema = m.sema) (hdata : m₁.data = m.data)
    (hrun : m₁.sched.runningThread = m.sched.runningThread)
    (hpc : ∀ t, t ≠ m.sched.runningThread → m₁.pc t = m.pc t)
    (hheld : LockHeld m c.ch m.sched.runningThread)
    (hstage : ∀ j, stageOf j (m.pc m.sched.runningThread) =
      if c.ch = j then some .pending else none)
    (heq : m₁.downPass (.bare c.ch) old (.woken c) = .ok m') :
    Placed (m'.pc m.sched.runningThread) ∧ ∀ j, ChannelInv m' j := by
  rcases Nat.le_one_iff_eq_zero_or_eq_one.mp (hinv₁.value (.bare c.ch)) with hv | hv
  · -- the thread sleeps, and its command stays pending
    obtain ⟨s', -, hslept⟩ := downPass_zero hinv₁ old (.woken c) hv
    obtain rfl := Except.ok.inj (heq.symm.trans hslept)
    refine ⟨?_, fun j => (h.channel j).same (fun t => ?_) (congrFun hdata j) ?_⟩
    · rw [slept_pc, if_pos hrun.symm]
      exact ⟨c, rfl, rfl⟩
    · rw [slept_pc, hrun]
      split
      · next ht => rw [ht, hstage]; rfl
      · next ht => rw [hpc t ht]
    · rw [diskDone, slept_sema, hsema]
      split
      · next hj => rw [← hj]; rfl
      · rfl
  · -- the thread takes the value, which the handler has set
    obtain rfl := Except.ok.inj (heq.symm.trans (downPass_one old _ hv))
    have hplace : ∀ t, (took (.bare c.ch) old (.woken c) m₁).pc t =
        if t = m.sched.runningThread then .run (.woken c) else m₁.pc t := by
      intro t
      rw [took_pc, hrun]
      rfl
    refine ⟨?_, fun j => ?_⟩
    · rw [hplace, if_pos rfl]
      trivial
    · by_cases hj : c.ch = j
      · subst hj
        refine (h.channel c.ch).moved (r := m.sched.runningThread)
          (fun t ht => by rw [hplace, if_neg ht, hpc t ht]) (fun t => h.alone hheld) ?_
        have hval : diskDone (took (.bare c.ch) old (.woken c) m₁) c.ch = 0 := by
          rw [diskDone, took_sema, if_pos rfl]
        have hdata' : (took (.bare c.ch) old (.woken c) m₁).data = m.data := hdata
        rw [hstage, if_pos rfl, hplace, if_pos rfl, hval, hdata',
          show stageOf c.ch (.run (.woken c)) = some .taken from if_pos rfl]
        rintro ⟨n, ⟨-, hzero, -⟩ | ⟨hflag, -, hlog⟩⟩
        · rw [diskDone, ← hsema] at hzero
          exact absurd (hzero.symm.trans hv) Nat.zero_ne_one
        · exact ⟨hflag, rfl, n, hlog⟩
      · refine (h.channel j).same (fun t => ?_) (congrFun hdata j) ?_
        · rw [hplace]
          split
          · next ht =>
            rw [ht, hstage, if_neg hj]
            exact if_neg hj
          · next ht => rw [hpc t ht]
        · rw [diskDone, took_sema, if_neg (by simpa using fun heq => hj heq.symm), hsema]
          rfl

theorem sync_step (h : IdeInv m) (hen : ideClient.Enabled m .sync) :
    ∃ m', ideClient.step .sync m = .ok m' ∧ IdeInv m' := by
  have hstep : ideClient.step .sync m = m.syncStep := rfl
  have hplaced := h.placed m.sched.runningThread
  cases hpc : m.pc m.sched.runningThread with
  | run k => exact absurd hpc (hen k)
  | lock i p k =>
    obtain ⟨m', heq, hinv, hframe, hkeeps⟩ := lockStep_ok h.sync hpc
    refine ⟨m', ?_, h.sync_lock ?_ hinv hframe hkeeps (lockStep_bareKept h.sync.sema heq)⟩
    · rw [hstep, Machine.syncStep, hpc]
      exact heq
    · rw [hpc] at hplaced ⊢
      exact hplaced
  | down r old k =>
    have hnot : ¬ (m.pc m.sched.runningThread).isRun := by rw [hpc]; exact id
    obtain ⟨m', heq, hinv, hframe, hkeeps⟩ := syncStep_ok h.sync hnot
    have hdown : m.downPass r old k = .ok m' := by
      rw [Machine.syncStep, hpc] at heq
      exact heq
    refine ⟨m', heq, ?_⟩
    cases r with
    | ofLock i =>
      refine h.sync_lock ?_ hinv hframe hkeeps (downPass_bareKept h.sync.sema hdown)
      rw [hpc] at hplaced ⊢
      exact hplaced
    | bare i =>
      rw [hpc] at hplaced
      obtain ⟨c, rfl, rfl⟩ := hplaced
      have hheld : LockHeld m c.ch m.sched.runningThread := by
        refine h.lockHeld (.inr ⟨c.ch, by rw [hpc]; rfl⟩) ?_
        rw [hpc]
        exact if_pos rfl
      obtain ⟨hplaced', hchannel⟩ :=
        h.channel_downPass h.sync.sema rfl rfl rfl (fun _ _ => rfl) hheld
        (fun j => by rw [hpc]; rfl) hdown
      exact h.of_sync hinv hframe hkeeps hplaced' hchannel

end IdeInv
namespace IdeInv

variable {m m' : IdeMachine} {s' : Sched} {d : IdeChannels} {k k' : IdePc}
  {c : Option (SyncCall (Fin 2))} {a : IdeAct}

theorem of_client (h : IdeInv m) (hpc : m.pc m.sched.runningThread = .run k)
    (hmoved : ClientMoved s' d k' c m m')
    (hheld : ∀ j, c.elim (k.held j) (·.after j (k.held j)) = k'.held j)
    (hplaced : Placed (m'.pc m.sched.runningThread)) (hchannel : ∀ j, ChannelInv m' j) :
    IdeInv m' := by
  refine ⟨hmoved.inv, fun t ht => ?_, fun t j => ?_, fun t => ?_, hchannel⟩
  · rw [hmoved.all] at ht
    rw [hmoved.pc t fun heq => ht (heq ▸ h.sync.sema.sched.running_mem)]
    exact h.unborn t ht
  · rw [hmoved.depthOf]
    split
    · next ht =>
      rw [ht, hmoved.client, h.nested, hpc]
      exact hheld j
    · next ht =>
      rw [hmoved.pc t ht]
      exact h.nested t j
  · by_cases ht : t = m.sched.runningThread
    · exact ht ▸ hplaced
    · rw [hmoved.pc t ht]
      exact h.placed t

theorem move (h : IdeInv m) (hne : m.sched.runningThread ≠ m.sched.idleThread)
    (hpc : m.pc m.sched.runningThread = .run k)
    (hexec : ideExec m.sched m.data k a = .ok (s', d, k', c)) (hq : Quiet m s')
    (hintr : ∀ t, t ≠ m.sched.runningThread → s'.intrOf t = m.sched.intrOf t)
    (hcall : ∀ call, c = some call → s'.runningThread = m.sched.runningThread ∧
      call.Allowed (m.moved s' d k') ∧ k'.free ∧
      ∃ i, call = .lockAcquire i ∨ call = .lockRelease i)
    (hheld : ∀ j, c.elim (k.held j) (·.after j (k.held j)) = k'.held j)
    (hchannel : ∀ j, (k.held j = 1 ∧ ∀ v, Holds (m.data j) v (k.stage j) →
      Holds (d j) v (k'.stage j)) ∨ k.stage j = none ∧ k'.stage j = none ∧ d j = m.data j) :
    ∃ m', ideClient.step (.client a) m = .ok m' ∧ IdeInv m' := by
  obtain ⟨m', heq, hmoved⟩ := ideClient.step_client h.sync (a := a) hne hpc hexec hq hintr
    fun call hc => ⟨(hcall call hc).1, (hcall call hc).2.1⟩
  have hplain : m'.sema = m.sema ∧ Placed (m'.pc m.sched.runningThread) ∧
      ∀ j, stageOf j (m'.pc m.sched.runningThread) = k'.stage j := by
    have hstep := ideClient.step_client_eq (a := a) hpc hexec
    cases c with
    | none =>
      obtain rfl := Except.ok.inj (heq.symm.trans hstep)
      rw [moved_pc, if_pos rfl]
      exact ⟨rfl, trivial, fun _ => rfl⟩
    | some call =>
      obtain ⟨hrun, -, hfree, i, hlock⟩ := hcall call rfl
      obtain ⟨q, hgoto⟩ : ∃ q, m' = (m.moved s' d k').goto (.lock i q k') := by
        rcases hlock with rfl | rfl
        · exact ⟨_, Except.ok.inj (heq.symm.trans hstep)⟩
        · exact ⟨_, Except.ok.inj (heq.symm.trans hstep)⟩
      rw [hgoto, goto_pc,
        if_pos (show m.sched.runningThread = (m.moved s' d k').sched.runningThread from hrun.symm)]
      exact ⟨rfl, hfree, fun j => (IdePc.stage_of_free hfree j).symm⟩
  obtain ⟨hsema, hplaced, hstage⟩ := hplain
  refine ⟨m', heq, h.of_client hpc hmoved hheld hplaced fun j => ?_⟩
  have hval : diskDone m' j = diskDone m j := by
    rw [diskDone, hsema]
    rfl
  have hnow : stageOf j (m.pc m.sched.runningThread) = k.stage j := by
    rw [hpc]
    rfl
  rcases hchannel j with ⟨hk, hstep⟩ | ⟨hk, hk', hdata⟩
  · have hlock : LockHeld m j m.sched.runningThread := by
      refine h.lockHeld (.inl ?_) ?_
      · rw [hpc]
        trivial
      · rw [hpc]
        exact hk
    refine (h.channel j).moved hmoved.pc (fun t => h.alone hlock) ?_
    rw [hnow, hstage, hmoved.data, hval]
    exact hstep _
  · refine (h.channel j).same (fun t => ?_) ?_ hval
    · by_cases ht : t = m.sched.runningThread
      · rw [ht, hstage, hnow, hk, hk']
      · rw [hmoved.pc t ht]
    · rw [hmoved.data, hdata]

end IdeInv
namespace IdeInv

variable {m : IdeMachine} {c : IdeCall}

theorem depth_eq (h : IdeInv m) {k : IdePc} (hpc : m.pc m.sched.runningThread = .run k)
    (j : Fin 2) :
    m.depth m.sched.runningThread j = k.held j := by
  have hnested := h.nested m.sched.runningThread j
  rw [Machine.depthOf, hpc] at hnested
  exact hnested

theorem move_call (h : IdeInv m) (hne : m.sched.runningThread ≠ m.sched.idleThread) {k k' : IdePc}
    {d : IdeChannels} {a : IdeAct} (hpc : m.pc m.sched.runningThread = .run k)
    (hexec : ideExec m.sched m.data k a = .ok (m.sched, d, k', none)) (hk : k.inCall = some c)
    (hk' : ∀ j, k'.held j = k.held j)
    (hother : ∀ j, c.ch ≠ j → k.stage j = none ∧ k'.stage j = none ∧ d j = m.data j)
    (hown : ∀ v, Holds (m.data c.ch) v (k.stage c.ch) → Holds (d c.ch) v (k'.stage c.ch)) :
    ∃ m', ideClient.step (.client a) m = .ok m' ∧ IdeInv m' := by
  refine h.move hne hpc hexec (quiet_refl h.sync.sema) (fun _ _ => rfl) nofun
    (fun j => (hk' j).symm) fun j => ?_
  by_cases hj : c.ch = j
  · refine .inl ⟨?_, hj ▸ hown⟩
    rw [IdePc.held, hk]
    exact if_pos hj
  · exact .inr (hother j hj)

theorem yield_step (h : IdeInv m) (hne : m.sched.runningThread ≠ m.sched.idleThread) {k : IdePc}
    (hpc : m.pc m.sched.runningThread = .run k)
    (hexec : ∀ s', threadYield m.sched = .ok s' →
      ideExec m.sched m.data k .yield = .ok (s', m.data, k, none)) :
    ∃ m', ideClient.step (.client .yield) m = .ok m' ∧ IdeInv m' := by
  obtain ⟨s', heq, hpassed⟩ := threadYield_ok h.sync.sema.sched
  refine h.move hne hpc (hexec s' heq) (quiet_of_passed h.sync.sema hpassed)
    (fun t _ => hpassed.intrOf t) nofun (fun _ => rfl) fun j => ?_
  by_cases hstage : k.stage j = none
  · exact .inr ⟨hstage, hstage, rfl⟩
  · exact .inl ⟨IdePc.held_of_stage hstage, fun _ => id⟩

theorem down_step (h : IdeInv m) (hne : m.sched.runningThread ≠ m.sched.idleThread)
    (hpc : m.pc m.sched.runningThread = .run (.down c)) :
    ∃ m', ideClient.step (.client .next) m = .ok m' ∧ IdeInv m' := by
  obtain ⟨m', heq, hmoved⟩ := ideClient.step_client h.sync (a := .next) hne hpc
    (show ideExec m.sched m.data (.down c) .next = _ from rfl) (quiet_refl h.sync.sema)
    (fun _ _ => rfl) fun call hc => ⟨rfl, Option.some.inj hc ▸ trivial⟩
  have hstep := ideClient.step_client_eq (a := .next) hpc
    (show ideExec m.sched m.data (.down c) .next = _ from rfl)
  have hdown := hstep.symm.trans heq
  have hinv := (moved_ok h.sync m.data (.woken c) hpc (quiet_refl h.sync.sema) fun _ _ => rfl).inv
  have hheld : LockHeld m c.ch m.sched.runningThread := by
    refine h.lockHeld (.inl ?_) ?_
    · rw [hpc]
      trivial
    · rw [hpc]
      exact if_pos rfl
  obtain ⟨hplaced, hchannel⟩ := h.channel_downPass (hinv.sema.intr .off) rfl rfl rfl
    (fun t ht => (moved_pc ..).trans (if_neg ht)) hheld (fun j => by rw [hpc]; rfl) hdown
  exact ⟨m', heq, h.of_client hpc hmoved (fun _ => rfl) hplaced hchannel⟩

end IdeInv
/-- The kernel stops in an `ASSERT` or a `PANIC` of `ide_read`, `ide_write` or `select_sector`. -/
def Refused (p : Panic) : Prop :=
  p.filename = "./device/ide.c" ∧ p.func ∈ ["ide_read", "ide_write", "select_sector"]

theorem IdeCall.refused (c : IdeCall) (line : Nat) (text : String) :
    Refused ⟨"./device/ide.c", line, c.func, text⟩ := by
  refine ⟨rfl, ?_⟩
  show c.func ∈ _
  rw [IdeCall.func]
  cases c.write with
  | true => simp
  | false => simp

namespace IdeInv

variable {m : IdeMachine} {c : IdeCall}

/-- What a step of a thread may do: lead to a state with the invariant, or stop the kernel where
`ide.c` says so. -/
def Goes (a : IdeStep) (m : IdeMachine) : Prop :=
  (∃ m', ideSystem.exec a m = .ok m' ∧ IdeInv m') ∨
    ∃ p, ideSystem.exec a m = .error p ∧ Refused p

theorem goes_error {a : IdeAct} {k : IdePc} {p : Panic}
    (hpc : m.pc m.sched.runningThread = .run k) (hexec : ideExec m.sched m.data k a = .error p)
    (hp : Refused p) : Goes (.mach (.client a)) m := by
  refine .inr ⟨p, ?_, hp⟩
  have hexec' : ideClient.exec a m.sched.runningThread k m.sched m.data = .error p := hexec
  show ideClient.step (.client a) m = .error p
  simp only [Client.step, Client.clientStep, hpc, hexec', error_bind]

theorem call_step (h : IdeInv m) (hne : m.sched.runningThread ≠ m.sched.idleThread)
    (hpc : m.pc m.sched.runningThread = .run .other) (c : IdeCall) :
    Goes (.mach (.client (.call c))) m := by
  by_cases hlba : c.lba ≤ maxLba
  · by_cases hcnt : c.secCnt > 0
    · have hexec : ideExec m.sched m.data .other (.call c) =
          .ok (m.sched, m.data, .loop c, some (.lockAcquire c.ch)) := by
        simp only [ideExec, decide_eq_true hlba, decide_eq_true hcnt, assert_true, ok_bind]
        rfl
      refine .inl (h.move hne hpc hexec (quiet_refl h.sync.sema) (fun _ _ => rfl)
        (fun call hc => ?_)
        (fun j => rfl) fun j => .inr ⟨rfl, rfl, rfl⟩)
      obtain rfl := Option.some.inj hc
      refine ⟨rfl, ?_, trivial, c.ch, .inl rfl⟩
      show m.depth m.sched.runningThread c.ch + 1 < 2 ^ 32
      rw [h.depth_eq hpc]
      show 0 + 1 < 2 ^ 32
      decide
    · refine goes_error hpc (p := ⟨"./device/ide.c", c.line, c.func, "sec_cnt > 0"⟩) ?_
        (c.refused _ _)
      simp only [ideExec, decide_eq_true hlba, decide_eq_false hcnt, assert_true, assert_false,
        ok_bind, error_bind]
  · refine goes_error hpc (p := ⟨"./device/ide.c", c.line, c.func, "lba <= max_lba"⟩) ?_
      (c.refused _ _)
    simp only [ideExec, decide_eq_false hlba, assert_false, error_bind]

theorem loop_step (h : IdeInv m) (hne : m.sched.runningThread ≠ m.sched.idleThread)
    (hpc : m.pc m.sched.runningThread = .run (.loop c)) : Goes (.mach (.client .next)) m := by
  by_cases hloop : c.secsDone < c.secCnt
  · by_cases hlba : c.lba + c.secsDone ≤ maxLba
    · have hexec : ideExec m.sched m.data (.loop c) .next =
        .ok (m.sched, m.data, .cmdOut c, none) := by
        simp only [ideExec, if_pos hloop, selectSector, decide_eq_true hlba, assert_true, ok_bind]
        rfl
      exact .inl (h.move_call hne hpc hexec rfl (fun _ => rfl)
        (fun _ _ => ⟨rfl, rfl, rfl⟩) fun _ => id)
    · refine goes_error hpc (p := ⟨"./device/ide.c", 83, "select_sector", "lba <= max_lba"⟩) ?_
        ⟨rfl, by simp⟩
      simp only [ideExec, if_pos hloop, selectSector, decide_eq_false hlba,
        assert_false, error_bind]
  · have hexec : ideExec m.sched m.data (.loop c) .next =
        .ok (m.sched, m.data, .other, some (.lockRelease c.ch)) := by
      simp only [ideExec, if_neg hloop]
      rfl
    refine .inl (h.move hne hpc hexec (quiet_refl h.sync.sema) (fun _ _ => rfl) (fun call hc => ?_)
      (fun j => ?_) fun j => .inr ⟨rfl, rfl, rfl⟩)
    · obtain rfl := Option.some.inj hc
      refine ⟨rfl, ?_, trivial, c.ch, .inr rfl⟩
      show 0 < m.depth m.sched.runningThread c.ch
      rw [h.depth_eq hpc, show (IdePc.loop c).held c.ch = 1 from if_pos rfl]
      exact Nat.one_pos
    · show (if c.ch = j then (if c.ch = j then 1 else 0) - 1 else if c.ch = j then 1 else 0) = 0
      split
      · rfl
      · rfl

theorem cmdOut_step (h : IdeInv m) (hne : m.sched.runningThread ≠ m.sched.idleThread)
    (hpc : m.pc m.sched.runningThread = .run (.cmdOut c)) : Goes (.mach (.client .next)) m := by
  have hexec : ideExec m.sched m.data (.cmdOut c) .next = .ok (m.sched, _, .issue c, none) := rfl
  refine .inl (h.move_call hne hpc hexec rfl (fun _ => rfl) (fun j hj => ?_) fun v hrest => ?_)
  · exact ⟨rfl, if_neg hj, Function.update_of_ne (Ne.symm hj) _ _⟩
  · obtain ⟨-, hv, n, hlog⟩ := hrest
    rw [show (IdePc.issue c).stage c.ch = some .pending from if_pos rfl, Function.update_self]
    exact ⟨n, .inl ⟨rfl, hv, congrArg (· ++ [IdeEvent.cmd]) hlog⟩⟩

theorem issue_step (h : IdeInv m) (hne : m.sched.runningThread ≠ m.sched.idleThread)
    (hpc : m.pc m.sched.runningThread = .run (.issue c)) : Goes (.mach (.client .next)) m := by
  have hstage : ∀ j, (if c.write then IdePc.busy c else .down c).stage j =
    (IdePc.issue c).stage j := by
    intro j
    cases hw : c.write with
    | true => simp [IdePc.stage, hw]
    | false => rfl
  refine .inl (h.move_call hne hpc rfl rfl (fun j => ?_) (fun j hj => ?_) fun v => ?_)
  · cases c.write <;> rfl
  · rw [hstage]
    exact ⟨if_neg hj, if_neg hj, rfl⟩
  · rw [hstage]
    exact id

theorem busy_step (h : IdeInv m) (hne : m.sched.runningThread ≠ m.sched.idleThread)
    (hpc : m.pc m.sched.runningThread = .run (.busy c)) (b : Bool) :
    Goes (.mach (.client (.ready b))) m := by
  cases b with
  | false => exact goes_error hpc rfl (c.refused _ _)
  | true =>
    have hstage : ∀ j, (if c.write then IdePc.down c else .loop c.advance).stage j =
        (IdePc.busy c).stage j := by
      intro j
      cases hw : c.write with
      | true => simp [IdePc.stage, hw]
      | false => simp [IdePc.stage, hw]
    refine .inl (h.move_call hne hpc rfl rfl (fun j => ?_) (fun j hj => ?_) fun v => ?_)
    · cases c.write <;> rfl
    · rw [hstage]
      exact ⟨if_neg fun hand => hj hand.2, if_neg fun hand => hj hand.2, rfl⟩
    · rw [hstage]
      exact id

theorem woken_step (h : IdeInv m) (hne : m.sched.runningThread ≠ m.sched.idleThread)
    (hpc : m.pc m.sched.runningThread = .run (.woken c)) : Goes (.mach (.client .next)) m := by
  have hstage : ∀ j, (if c.write then IdePc.loop c.advance else .busy c).stage j = none := by
    intro j
    cases hw : c.write with
    | true => rfl
    | false => simp [IdePc.stage, hw]
  refine .inl (h.move_call hne hpc rfl rfl (fun j => ?_) (fun j hj => ?_) fun v htaken => ?_)
  · cases c.write <;> rfl
  · exact ⟨if_neg hj, hstage j, Function.update_of_ne (Ne.symm hj) _ _⟩
  · rw [show (IdePc.woken c).stage c.ch = some .taken from if_pos rfl] at htaken
    obtain ⟨hflag, hv, n, hlog⟩ := htaken
    rw [hstage, Function.update_self]
    refine ⟨hflag, hv, n + 1, ?_⟩
    rw [rounds_succ, IdeChannel.record, hlog, List.append_assoc]
    rfl

end IdeInv
namespace IdeInv

variable {m m' : IdeMachine}

theorem intr (h : IdeInv m) (st : IntrStatus) :
    IdeInv { m with sched := intrSetStatus st m.sched } :=
  ⟨h.sync.intr st, h.unborn, h.nested, h.placed,
    fun j => (h.channel j).same (fun _ => rfl) rfl rfl⟩

theorem expecting (h : IdeInv m) {j : Fin 2} (hflag : (m.data j).expectingIntr = true) :
    diskDone m j = 0 ∧ (∃ n, (m.data j).log = rounds n ++ [.cmd]) ∧
      ∃ t, stageOf j (m.pc t) ≠ none := by
  obtain ⟨t, ht⟩ : ∃ t, stageOf j (m.pc t) ≠ none := by
    by_contra hnone
    obtain ⟨hoff, -, -⟩ := (h.channel j).rest fun t => not_not.mp fun ht => hnone ⟨t, ht⟩
    exact absurd (hflag.symm.trans hoff) (by decide)
  have hholds := (h.channel j).busy t ht
  cases hstage : stageOf j (m.pc t) with
  | none => exact absurd hstage ht
  | some st =>
    rw [hstage] at hholds
    cases st with
    | taken => exact absurd (hflag.symm.trans hholds.1) (by decide)
    | pending =>
      obtain ⟨n, ⟨-, hv, hlog⟩ | ⟨hoff, -, -⟩⟩ := hholds
      · exact ⟨hv, ⟨n, hlog⟩, t, ht⟩
      · exact absurd (hflag.symm.trans hoff) (by decide)

theorem pending_of_expecting (h : IdeInv m) {j : Fin 2} (hflag : (m.data j).expectingIntr = true)
    {t : Nat} (ht : stageOf j (m.pc t) ≠ none) : stageOf j (m.pc t) = some .pending := by
  have hholds := (h.channel j).busy t ht
  cases hstage : stageOf j (m.pc t) with
  | none => exact absurd hstage ht
  | some st =>
    rw [hstage] at hholds
    cases st with
    | taken => exact absurd (hflag.symm.trans hholds.1) (by decide)
    | pending => rfl

theorem handler_ok (h : IdeInv m) {irq : Nat} (hirq : irq = 0x2e ∨ irq = 0x2f) :
    ∃ m', intrHdHandler irq m = .ok m' ∧ IdeInv m' := by
  obtain ⟨ch, hch, hno⟩ : ∃ ch, Fin.ofNat 2 (irq - 0x2e) = ch ∧ irqNo ch = irq := by
    rcases hirq with rfl | rfl
    · exact ⟨0, rfl, rfl⟩
    · exact ⟨1, rfl, rfl⟩
  simp only [intrHdHandler, hirq, hch, hno, decide_true, assert_true, ok_bind]
  split
  · next hflag =>
    obtain ⟨hzero, ⟨n, hlog⟩, t, ht⟩ := h.expecting hflag
    have hinv := h.sync.quiet (quiet_refl h.sync.sema)
      (Function.update m.data ch (({ m.data ch with expectingIntr := false }).record .up))
    obtain ⟨m', heq, hup⟩ := up_ok (r := .bare ch) hinv.sema hzero
    have hsync : SyncInv m' := ⟨hup.inv, fun j => (hinv.lock j).frame
      (congrArg _ (hup.other _ (by simp))) (congrFun hup.holder j) (congrFun hup.repeatNr j)
      (fun t => by rw [hup.depth]) fun t => by
        rw [hup.pc]
        exact .refl _⟩
    refine ⟨m', heq, hsync, fun t ht => ?_, fun t j => ?_, fun t => ?_, fun j => ?_⟩
    · rw [hup.pc]
      rw [hup.all] at ht
      exact h.unborn t ht
    · rw [Machine.depthOf, hup.pc, hup.depth]
      exact h.nested t j
    · rw [hup.pc]
      exact h.placed t
    · by_cases hj : j = ch
      · subst hj
        have hdata : m'.data j = ({ m.data j with expectingIntr := false }).record .up := by
          rw [hup.data]
          exact Function.update_self ..
        refine ⟨fun u hu => ?_, fun hall => ?_⟩
        · rw [hup.pc] at hu ⊢
          rw [show stageOf j (m.pc u) = some .pending from h.pending_of_expecting hflag hu, hdata]
          refine ⟨n, .inr ⟨rfl, hup.value, ?_⟩⟩
          show (m.data j).log ++ [.up] = _
          rw [hlog, List.append_assoc]
          rfl
        · have hnone := hall t
          rw [hup.pc] at hnone
          exact absurd hnone ht
      · refine (h.channel j).same (fun u => by rw [hup.pc]) ?_ ?_
        · rw [hup.data]
          exact Function.update_of_ne hj _ _
        · exact congrArg Semaphore.value (hup.other _ (by simpa using hj))
  · exact ⟨m, rfl, h⟩

theorem hd_step (h : IdeInv m) {irq : Nat} (hirq : irq = 0x2e ∨ irq = 0x2f) :
    ∃ m', hdIntr irq m = .ok m' ∧ IdeInv m' := by
  obtain ⟨m', heq, hinv⟩ := (h.intr .off).handler_ok hirq
  refine ⟨_, ?_, hinv.intr .on⟩
  rw [hdIntr, show intrDisable m.sched = intrSetStatus .off m.sched from rfl, heq]
  rfl

/-- Every step that can be taken keeps the invariant, or stops the kernel where `ide.c` says so. -/
theorem step (h : IdeInv m) {a : IdeStep} (hen : ideSystem.guard m a) : Goes a m := by
  cases a with
  | hdIntr irq => exact .inl (h.hd_step hen.2)
  | mach a =>
    rcases a.kernel_or with hk | ⟨b, rfl⟩ | ⟨a, rfl⟩
    · by_cases hs : a = .sync
      · subst hs
        exact .inl (h.sync_step hen)
      · exact .inl (h.kernel hk hs hen)
    · exact nomatch b
    obtain ⟨hne, k, hpc, hguard⟩ := hen
    cases k with
    | other =>
      cases a with
      | intr status =>
        exact .inl (h.move hne hpc rfl (quiet_intr h.sync.sema status)
          (fun t ht => intrOf_intrSetStatus m.sched status ht) nofun (fun _ => rfl)
          fun j => .inr ⟨rfl, rfl, rfl⟩)
      | yield => exact .inl (h.yield_step hne hpc fun s' heq => by rw [ideExec, heq]; rfl)
      | call c => exact h.call_step hne hpc c
      | next => cases hguard
      | ready b => cases hguard
    | busy c =>
      cases a with
      | yield => exact .inl (h.yield_step hne hpc fun s' heq => by rw [ideExec, heq]; rfl)
      | ready b => exact h.busy_step hne hpc b
      | intr status => cases hguard
      | call c => cases hguard
      | next => cases hguard
    | loop c =>
      cases a with
      | next => exact h.loop_step hne hpc
      | _ => cases hguard
    | cmdOut c =>
      cases a with
      | next => exact h.cmdOut_step hne hpc
      | _ => cases hguard
    | issue c =>
      cases a with
      | next => exact h.issue_step hne hpc
      | _ => cases hguard
    | down c =>
      cases a with
      | next => exact .inl (h.down_step hne hpc)
      | _ => cases hguard
    | woken c =>
      cases a with
      | next => exact h.woken_step hne hpc
      | _ => cases hguard

theorem init (h : ideSystem.init m) : IdeInv m := by
  obtain ⟨hfresh, hbare, hdata⟩ := h
  have hother : ∀ t, m.pc t = .run .other := by
    intro t
    obtain ⟨k, hk, hpc⟩ := hfresh.pc t
    rw [hpc, show k = .other from hk]
  refine ⟨hfresh.syncInv, fun t _ => hother t, fun t j => ?_, fun t => ?_, fun j => ⟨fun t ht => ?_,
    fun _ => ?_⟩⟩
  · rw [hfresh.depthOf, hother]
    rfl
  · rw [hother]
    trivial
  · rw [hother] at ht
    exact absurd rfl ht
  · rw [hdata, diskDone, hbare]
    exact ⟨rfl, rfl, 0, rfl⟩

theorem of_reachable (h : ideSystem.Reachable m) : IdeInv m := by
  refine h.invariant (fun _ => IdeInv.init) fun s a t hinv hstep => ?_
  rcases hinv.step hstep.1 with ⟨t', heq, hinv'⟩ | ⟨p, herr, -⟩
  · exact hstep.eq_of_ok heq ▸ hinv'
  · exact nomatch herr.symm.trans hstep.2

theorem log_prefix (h : IdeInv m) (j : Fin 2) : ∃ n, (m.data j).log <+: rounds n := by
  by_cases hall : ∀ t, stageOf j (m.pc t) = none
  · obtain ⟨-, -, n, hlog⟩ := (h.channel j).rest hall
    exact ⟨n, hlog ▸ List.prefix_rfl⟩
  · obtain ⟨t, ht⟩ := not_forall.mp hall
    have hholds := (h.channel j).busy t ht
    cases hstage : stageOf j (m.pc t) with
    | none => exact absurd hstage ht
    | some st =>
      rw [hstage] at hholds
      cases st with
      | pending =>
        obtain ⟨n, ⟨-, -, hlog⟩ | ⟨-, -, hlog⟩⟩ := hholds
        · exact ⟨n + 1, [.up, .down], by rw [hlog, rounds_succ, List.append_assoc]; rfl⟩
        · exact ⟨n + 1, [.down], by rw [hlog, rounds_succ, List.append_assoc]; rfl⟩
      | taken =>
        obtain ⟨-, -, n, hlog⟩ := hholds
        exact ⟨n + 1, [.down], by rw [hlog, rounds_succ, List.append_assoc]; rfl⟩

theorem rest_of_free (h : IdeInv m) {j : Fin 2} (hfree : (m.sema (.ofLock j)).value = 1) :
    Holds (m.data j) (diskDone m j) none := by
  refine (h.channel j).rest fun t => not_not.mp fun ht => ?_
  obtain ⟨hrun, hk⟩ := held_of_stageOf (h.placed t) ht
  exact absurd (hfree.symm.trans (h.lockHeld hrun hk).value) Nat.one_ne_zero

end IdeInv

/-- The completion protocol, in every state that threads and interrupts lead to: `disk_done` is 0 or
1; the events on a channel are those of commands one after the other, each with one `sema_up` and
one `sema_down`; while the channel's lock is free no interrupt is expected, `disk_done` is 0 and
every command has had both; and the only assertions that can fail are those of `ide_read`,
`ide_write` and `select_sector`. -/
theorem ide_completion (m : IdeMachine) (h : ideSystem.Reachable m) :
    (∀ ch, (m.sema (.bare ch)).value = 0 ∨ (m.sema (.bare ch)).value = 1) ∧
    (∀ ch, ∃ n, (m.data ch).log <+: rounds n) ∧
    (∀ ch, (m.sema (.ofLock ch)).value = 1 → (m.data ch).expectingIntr = false ∧
      (m.sema (.bare ch)).value = 0 ∧ ∃ n, (m.data ch).log = rounds n) ∧
    ∀ a, ideSystem.guard m a → (∃ m', ideSystem.exec a m = .ok m') ∨
      ∃ p, ideSystem.exec a m = .error p ∧ Refused p := by
  have inv := IdeInv.of_reachable h
  refine ⟨fun ch => ?_, inv.log_prefix, fun ch => inv.rest_of_free, fun a ha => ?_⟩
  · exact Nat.le_one_iff_eq_zero_or_eq_one.mp (inv.sync.sema.value _)
  · rcases inv.step ha with ⟨m', heq, -⟩ | hrefused
    · exact .inl ⟨m', heq⟩
    · exact .inr hrefused
instance (t : Nat) (k : IdePc) (s : Sched) (d : IdeChannels) (a : IdeAct) :
    Decidable (ideClient.guard t k s d a) :=
  inferInstanceAs (Decidable (ideGuard k a = true))

instance : DecidablePred ideClient.start := fun k => inferInstanceAs (Decidable (k = .other))

instance (m : IdeMachine) (a : IdeStep) : Decidable (ideSystem.guard m a) :=
  match a with
  | .mach a => inferInstanceAs (Decidable (ideClient.Enabled m a))
  | .hdIntr irq => inferInstanceAs (Decidable (_ ∧ (irq = 0x2e ∨ irq = 0x2f)))

/-- `lock_init` and `sema_init(&channel->disk_done, 0)`. -/
def bootSemas : SemaRef (Fin 2) → Semaphore
  | .bare _ => semaInit 0
  | .ofLock _ => semaInit 1

def bootIde : IdeMachine :=
  { (freshMachine .other fun _ => ⟨false, []⟩ : IdeMachine) with sema := bootSemas }

theorem bootIde_init : ideSystem.init bootIde := by
  have hfresh : Fresh ideClient.start (freshMachine .other fun _ => ⟨false, []⟩ : IdeMachine) :=
    freshMachine_fresh ideClient.start (show ideClient.start .other from rfl) _
  exact ⟨⟨hfresh.booted, fun _ => rfl, fun _ => .inl rfl, hfresh.holder, hfresh.repeatNr, hfresh.pc,
    hfresh.depth, hfresh.woken⟩, fun _ => rfl, fun _ => rfl⟩

/-- The main thread reads a sector. The interrupt comes before `sema_down`, and once more when the
lock is free again. -/
def readActs : List IdeStep :=
  -- the parts have their types, so that no coercions between them are searched for
  ([.mach (.client (.intr .on)), .mach (.client (.call ⟨false, 0, 0, 7, 1, 0⟩))] : List IdeStep) ++
    (List.replicate 5 (.mach .sync) : List IdeStep) ++
    (List.replicate 2 (.mach (.client .next)) : List IdeStep) ++ ([.hdIntr 0x2e] : List IdeStep) ++
    (List.replicate 3 (.mach (.client .next)) : List IdeStep) ++
    ([.mach (.client (.ready true)), .mach (.client .next)] : List IdeStep) ++
    (List.replicate 6 (.mach .sync) : List IdeStep) ++ ([.hdIntr 0x2e] : List IdeStep)

theorem ide_completion_read : ∃ m, ideSystem.Reachable m ∧
    (m.data 0).log = [.cmd, .up, .down] ∧ (m.sema (.bare 0)).value = 0 := by
  have hreach := (System.Reachable.init bootIde_init).replay_getD readActs (by decide +kernel)
  obtain ⟨-, -, hfree, -⟩ := ide_completion _ hreach
  exact ⟨_, hreach, by decide +kernel, (hfree 0 (by decide +kernel)).2.1⟩

end OriginOS.Completion
