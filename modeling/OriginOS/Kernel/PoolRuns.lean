import OriginOS.Kernel.PoolPaths
import OriginOS.Thread.SyncRuns

/-! The runs of threads that allocate and free pages, in any interleaving. `get_kernel_pages` takes
no lock, and `page_table_add` allocates a page table from the kernel pool for callers that hold only
the lock of the user pool. On these ways a frame can be handed out twice; on all others it cannot.
-/

namespace OriginOS

open Lib Sched

/-- The runs from the state that `mem_pool_init` leaves. -/
def poolSystem : System (Machine PoolFlags PoolPc PoolState) (MachAct PoolPc PoolAct Empty) Panic :=
  poolClient.system fun d => (∃ mem, d.pool = (memPoolInit 0x2000000 mem).1) ∧ d.log = []

/-- Between two times that `palloc` hands out a frame there is a `pfree` of it. The latest event
comes first. -/
def HandedOutOnce (log : List PoolEvent) : Prop :=
  ∀ later between earlier pagePhyAddr,
    log = later ++ .palloc pagePhyAddr :: (between ++ .palloc pagePhyAddr :: earlier) →
    .pfree pagePhyAddr ∈ between

/-- The frame has been handed out and not been given back since. -/
def outstanding (pagePhyAddr : Nat) : List PoolEvent → Bool
  | [] => false
  | .palloc a :: log => a = pagePhyAddr || outstanding pagePhyAddr log
  | .pfree a :: log => a ≠ pagePhyAddr && outstanding pagePhyAddr log

theorem outstanding_of_append {a : Nat} {between earlier : List PoolEvent}
    (h : .pfree a ∉ between) : outstanding a (between ++ .palloc a :: earlier) = true := by
  induction between with
  | nil => simp [outstanding]
  | cons e between ih =>
    rw [List.mem_cons, not_or] at h
    have hrest := ih h.2
    cases e with
    | palloc b => simp [outstanding, hrest]
    | pfree b =>
      have hne : b ≠ a := fun heq => h.1 (by rw [heq])
      simp [outstanding, hrest, hne]

namespace HandedOutOnce

variable {log : List PoolEvent} {a : Nat}

theorem palloc (h : HandedOutOnce log) (ha : outstanding a log = false) :
    HandedOutOnce (.palloc a :: log) := by
  intro later between earlier b heq
  cases later with
  | nil =>
    obtain ⟨hb, rfl⟩ := List.cons.inj heq
    obtain rfl := PoolEvent.palloc.inj hb
    by_contra hfree
    rw [outstanding_of_append hfree] at ha
    exact Bool.noConfusion ha
  | cons e later => exact h later between earlier b (List.cons.inj heq).2

theorem pfree (h : HandedOutOnce log) : HandedOutOnce (.pfree a :: log) := by
  intro later between earlier b heq
  cases later with
  | nil => exact nomatch (List.cons.inj heq).1
  | cons e later => exact h later between earlier b (List.cons.inj heq).2

end HandedOutOnce

/-! ### Calls that hold the lock -/

/-- Every `palloc` and `pfree` of the rest of a call runs with the lock of its pool held, where
`held` tells which locks the thread has now; at the end it has none. -/
def Guarded (held : PoolFlags → Bool) : List PoolOp → Prop
  | [] => ∀ pf, held pf = false
  | .lockAcquire pf :: ops => held pf = false ∧ Guarded (Function.update held pf true) ops
  | .lockRelease pf :: ops => held pf = true ∧ Guarded (Function.update held pf false) ops
  | .palloc pf :: ops => held pf = true ∧ Guarded held ops
  | .pfree a :: ops =>
    (∃ pf, held pf = true ∧ ∃ i < 3840, a = frameAddr pf i) ∧ Guarded held ops

def PoolPc.Guarded (held : PoolFlags → Bool) : PoolPc → Prop
  | .rest ops => OriginOS.Guarded held ops
  | .set pf _ ops => held pf = true ∧ OriginOS.Guarded held ops

/-- The call does not take the ways into `palloc` that hold no lock of the kernel pool. -/
def PoolCall.Locked : PoolCall → Prop
  | .threadStart | .processExecute | .getKernelPages _ => False
  | .getUserPages pdeAbsent => ∀ absent ∈ pdeAbsent, absent = false
  | .getAPage _ pdeAbsent => pdeAbsent = false
  | .sysMalloc _ pdeAbsent => ∀ absent ∈ pdeAbsent, absent = false
  | .sysFree .. => True

theorem mallocPage_guarded {pf : PoolFlags} {held : PoolFlags → Bool} {pdeAbsent : List Bool}
    {ops : List PoolOp} (hpf : held pf = true) (habsent : ∀ absent ∈ pdeAbsent, absent = false)
    (hops : Guarded held ops) : Guarded held (PoolOp.mallocPage pf pdeAbsent ++ ops) := by
  induction pdeAbsent with
  | nil => exact hops
  | cons absent rest ih =>
    obtain rfl := habsent absent List.mem_cons_self
    exact ⟨hpf, ih fun b hb => habsent b (List.mem_cons_of_mem _ hb)⟩

theorem mfreePage_guarded {pf : PoolFlags} {held : PoolFlags → Bool} (frames : List (Fin 3840))
    {ops : List PoolOp} (hpf : held pf = true) (hops : Guarded held ops) :
    Guarded held (PoolOp.mfreePage pf frames ++ ops) := by
  induction frames with
  | nil => exact hops
  | cons i rest ih => exact ⟨⟨pf, hpf, i, i.isLt, rfl⟩, ih⟩

theorem locked_guarded {pf : PoolFlags} {body : List PoolOp}
    (hbody : ∀ {held ops}, held pf = true → Guarded held ops → Guarded held (body ++ ops)) :
    Guarded (fun _ => false) (PoolOp.locked pf body) := by
  refine ⟨rfl, hbody (Function.update_self ..) ⟨Function.update_self .., fun pf' => ?_⟩⟩
  by_cases hpf : pf' = pf
  · rw [hpf, Function.update_self]
  · rw [Function.update_of_ne hpf, Function.update_of_ne hpf]

theorem PoolCall.Locked.guarded {c : PoolCall} (h : c.Locked) :
    OriginOS.Guarded (fun _ => false) c.body := by
  cases c with
  | threadStart => exact absurd h id
  | processExecute => exact absurd h id
  | getKernelPages pgCnt => exact absurd h id
  | getUserPages pdeAbsent => exact locked_guarded fun hpf => mallocPage_guarded hpf h
  | getAPage pf pdeAbsent =>
    obtain rfl : pdeAbsent = false := h
    exact locked_guarded fun hpf hops => ⟨hpf, hops⟩
  | sysMalloc pf pdeAbsent => exact locked_guarded fun hpf => mallocPage_guarded hpf h
  | sysFree pf frames => exact locked_guarded fun hpf => mfreePage_guarded frames hpf

/-! ### The invariant -/

/-- The invariant of the runs whose calls hold the locks: the bits tell which frames are handed out,
a thread has the locks that its place needs, and the bit that a thread has found clear in `palloc`
stays clear. -/
structure PoolInv (m : Machine PoolFlags PoolPc PoolState) : Prop where
  sync : SyncInv m
  laidOut : PoolsLaidOut m.data.pool
  bits : ∀ pf i, i < 3840 →
    (m.data.pool pf).poolBitmap.bit i = outstanding (frameAddr pf i) m.data.log
  once : HandedOutOnce m.data.log
  guarded : ∀ t ∈ m.sched.threadAllList, ∃ held, (m.pc t).client.Guarded held ∧
    ∀ pf, m.depthOf t pf = (held pf).toNat
  unborn : ∀ t, t ∉ m.sched.threadAllList → ∀ pf, m.depthOf t pf = 0
  scanned : ∀ t ∈ m.sched.threadAllList, ∀ pf r ops, (m.pc t).client = .set pf r ops →
    (m.pc t).isRun ∧ ∃ i : Nat, r = i ∧ i < 3840 ∧ (m.data.pool pf).poolBitmap.bit i = false

namespace PoolInv

variable {m m' : Machine PoolFlags PoolPc PoolState}

theorem lockHeld (h : PoolInv m) {t : Nat} {pf : PoolFlags} {held : PoolFlags → Bool}
    (hrun : (m.pc t).isRun) (hdepth : ∀ pf, m.depthOf t pf = (held pf).toNat)
    (hpf : held pf = true) : LockHeld m pf t := by
  refine (h.sync.lock pf).held fun hout => ?_
  have hd := hdepth pf
  rw [hpf] at hd
  cases hp : m.pc t with
  | run k =>
    rw [Machine.depthOf, hp] at hd
    rw [hp] at hout
    change m.depth t pf = 1 at hd
    change m.depth t pf = 0 at hout
    omega
  | down r old k => rw [hp] at hrun; exact absurd hrun id
  | lock i p k => rw [hp] at hrun; exact absurd hrun id

theorem lockHeld_unique {t u : Nat} {pf : PoolFlags} (ht : LockHeld m pf t)
    (hu : LockHeld m pf u) : t = u := by
  by_contra hne
  exact ht.inside.not_outside (hu.outside t hne)

theorem frame (h : PoolInv m) (hinv : SyncInv m') (hf : Frame poolClient.start m m') :
    PoolInv m' := by
  refine ⟨hinv, hf.data ▸ h.laidOut, hf.data ▸ h.bits, hf.data ▸ h.once, fun t ht => ?_,
    fun t ht pf => ?_, fun t ht pf r ops hk => ?_⟩
  · by_cases hold : t ∈ m.sched.threadAllList
    · obtain ⟨held, hg, hd⟩ := h.guarded t hold
      exact ⟨held, hf.client t hold ▸ hg, fun pf => by rw [hf.depthOf, hd]⟩
    · obtain ⟨k, hk, hpc⟩ := hf.born t ht hold
      refine ⟨fun _ => false, ?_, fun pf => by rw [hf.depthOf, h.unborn t hold]; rfl⟩
      obtain rfl : k = .rest [] := hk
      rw [hpc]
      exact fun _ => rfl
  · rw [hf.depthOf]
    exact h.unborn t (fun hold => ht (hf.all t hold)) pf
  · by_cases hold : t ∈ m.sched.threadAllList
    · rw [hf.client t hold] at hk
      obtain ⟨hrun, hi⟩ := h.scanned t hold pf r ops hk
      exact ⟨by by_contra hne; exact hf.inside t hne hrun, hf.data ▸ hi⟩
    · obtain ⟨k, hk', hpc⟩ := hf.born t ht hold
      obtain rfl : k = .rest [] := hk'
      rw [hpc] at hk
      exact nomatch hk

theorem moved (h : PoolInv m) {s' : Sched} {d : PoolState} {k : PoolPc}
    {c : Option (SyncCall PoolFlags)} (hm : ClientMoved s' d k c m m')
    (hlaid : PoolsLaidOut d.pool)
    (hbits : ∀ pf i, i < 3840 → (d.pool pf).poolBitmap.bit i = outstanding (frameAddr pf i) d.log)
    (honce : HandedOutOnce d.log)
    (hguarded : ∃ held, k.Guarded held ∧ ∀ pf,
      c.elim (m.depthOf m.sched.runningThread pf)
        (·.after pf (m.depthOf m.sched.runningThread pf)) = (held pf).toNat)
    (hscanned : ∀ pf r ops, k = .set pf r ops →
      c = none ∧ ∃ i : Nat, r = i ∧ i < 3840 ∧ (d.pool pf).poolBitmap.bit i = false)
    (hothers : ∀ t ∈ m.sched.threadAllList, t ≠ m.sched.runningThread → ∀ pf (i : Nat) ops,
      (m.pc t).client = .set pf i ops → (m.data.pool pf).poolBitmap.bit i = false →
      (d.pool pf).poolBitmap.bit i = false) : PoolInv m' := by
  have hcur := h.sync.sema.sched.running_mem
  refine ⟨hm.inv, hm.data ▸ hlaid, hm.data ▸ hbits, hm.data ▸ honce, fun t ht => ?_,
    fun t ht pf => ?_, fun t ht pf r ops hk => ?_⟩
  · rw [hm.all] at ht
    by_cases htc : t = m.sched.runningThread
    · obtain ⟨held, hg, hd⟩ := hguarded
      refine ⟨held, by rw [htc, hm.client]; exact hg, fun pf => ?_⟩
      rw [hm.depthOf, if_pos htc, htc, hd]
    · obtain ⟨held, hg, hd⟩ := h.guarded t ht
      refine ⟨held, by rw [hm.pc t htc]; exact hg, fun pf => ?_⟩
      rw [hm.depthOf, if_neg htc, hd]
  · rw [hm.all] at ht
    have htc : t ≠ m.sched.runningThread := fun heq => ht (heq ▸ hcur)
    rw [hm.depthOf, if_neg htc]
    exact h.unborn t ht pf
  · rw [hm.all] at ht
    by_cases htc : t = m.sched.runningThread
    · subst htc
      rw [hm.client] at hk
      obtain ⟨hc, hi⟩ := hscanned pf r ops hk
      exact ⟨hm.returned hc, hm.data ▸ hi⟩
    · rw [hm.pc t htc] at hk ⊢
      obtain ⟨hrun, i, rfl, hi, hbit⟩ := h.scanned t ht pf r ops hk
      exact ⟨hrun, i, rfl, hi, hm.data ▸ hothers t ht htc pf i ops hk hbit⟩

theorem moved_quiet (h : PoolInv m) {s' : Sched} {k : PoolPc} {held : PoolFlags → Bool}
    (hm : ClientMoved s' m.data k none m m') (hg : k.Guarded held)
    (hd : ∀ pf, m.depthOf m.sched.runningThread pf = (held pf).toNat)
    (hk : ∀ pf r ops, k = .set pf r ops →
      ∃ i : Nat, r = i ∧ i < 3840 ∧ (m.data.pool pf).poolBitmap.bit i = false) : PoolInv m' :=
  h.moved hm h.laidOut h.bits h.once ⟨held, hg, hd⟩ (fun pf r ops heq => ⟨rfl, hk pf r ops heq⟩)
    fun _ _ _ _ _ _ _ hbit => hbit

/-- `lock_acquire` or `lock_release` of `pf`, which leaves the thread with the lock or without. -/
theorem moved_lock (h : PoolInv m) {ops : List PoolOp} {call : SyncCall PoolFlags}
    {pf : PoolFlags} {value : Bool} {held : PoolFlags → Bool}
    (hm : ClientMoved m.sched m.data (.rest ops) (some call) m m')
    (hg : Guarded (Function.update held pf value) ops)
    (hd : ∀ pf, m.depthOf m.sched.runningThread pf = (held pf).toNat)
    (hcall : ∀ pf', call.after pf' (held pf').toNat =
      if pf = pf' then value.toNat else (held pf').toNat) : PoolInv m' := by
  refine h.moved hm h.laidOut h.bits h.once ⟨_, hg, fun pf' => ?_⟩ (fun pf r ops heq => nomatch heq)
    fun _ _ _ _ _ _ _ hbit => hbit
  rw [Option.elim_some, hd, hcall]
  by_cases hpf : pf = pf'
  · rw [if_pos hpf, ← hpf, Function.update_self]
  · rw [if_neg hpf, Function.update_of_ne (Ne.symm hpf)]

theorem moved_palloc (h : PoolInv m) {pf : PoolFlags} {i : Nat} {ops : List PoolOp}
    {held : PoolFlags → Bool} (hi : i < 3840)
    (hbit : (m.data.pool pf).poolBitmap.bit i = false)
    (hm : ClientMoved m.sched ⟨Function.update m.data.pool pf ((m.data.pool pf).put i true),
      .palloc (frameAddr pf i) :: m.data.log⟩ (.rest ops) none m m')
    (hrun : (m.pc m.sched.runningThread).isRun) (hpf : held pf = true) (hg : Guarded held ops)
    (hd : ∀ pf, m.depthOf m.sched.runningThread pf = (held pf).toNat) : PoolInv m' := by
  refine h.moved hm (h.laidOut.put pf i true) (fun pf' j hj => ?_) (h.once.palloc ?_)
    ⟨held, hg, hd⟩ (fun pf r ops heq => nomatch heq) fun t ht htc pf' j ops' hk hj => ?_
  · rw [Pool.bit_update, h.bits pf' j hj]
    show _ = (frameAddr pf i = frameAddr pf' j || outstanding (frameAddr pf' j) m.data.log)
    by_cases heq : pf' = pf ∧ j = i
    · obtain ⟨rfl, rfl⟩ := heq
      simp
    · rw [if_neg heq]
      have hne : frameAddr pf i ≠ frameAddr pf' j := fun he =>
        heq ((frameAddr_inj hi hj he).imp Eq.symm Eq.symm)
      simp [hne]
  · rw [← h.bits pf i hi]
    exact hbit
  · -- no other thread is in `palloc` of the same pool
    obtain ⟨hrun', -⟩ := h.scanned t ht pf' j ops' hk
    obtain ⟨held', hg', hd'⟩ := h.guarded t ht
    rw [hk] at hg'
    have hne : pf' ≠ pf := by
      rintro rfl
      exact htc (lockHeld_unique (h.lockHeld hrun' hd' hg'.1) (h.lockHeld hrun hd hpf))
    rw [Pool.bit_update, if_neg fun he => hne he.1]
    exact hj

theorem moved_pfree (h : PoolInv m) {pf : PoolFlags} {i : Nat} {ops : List PoolOp}
    {held : PoolFlags → Bool} (hi : i < 3840)
    (hm : ClientMoved m.sched ⟨Function.update m.data.pool pf ((m.data.pool pf).put i false),
      .pfree (frameAddr pf i) :: m.data.log⟩ (.rest ops) none m m') (hg : Guarded held ops)
    (hd : ∀ pf, m.depthOf m.sched.runningThread pf = (held pf).toNat) : PoolInv m' := by
  refine h.moved hm (h.laidOut.put pf i false) (fun pf' j hj => ?_) h.once.pfree
    ⟨held, hg, hd⟩ (fun pf r ops heq => nomatch heq) fun t ht htc pf' j ops' hk hj => ?_
  · rw [Pool.bit_update, h.bits pf' j hj]
    show _ = (frameAddr pf i ≠ frameAddr pf' j && outstanding (frameAddr pf' j) m.data.log)
    by_cases heq : pf' = pf ∧ j = i
    · obtain ⟨rfl, rfl⟩ := heq
      simp
    · rw [if_neg heq]
      have hne : frameAddr pf i ≠ frameAddr pf' j := fun he =>
        heq ((frameAddr_inj hi hj he).imp Eq.symm Eq.symm)
      simp [hne]
  · rw [Pool.bit_update, hj]
    exact ite_self false

/-- The next step of a guarded call keeps the invariant, unless it finds a pool exhausted. -/
theorem go (h : PoolInv m) {k : PoolPc} (hne : m.sched.runningThread ≠ m.sched.idleThread)
    (hpc : m.pc m.sched.runningThread = .run k)
    (hok : poolClient.step (.client .go) m = .ok m') : PoolInv m' := by
  have hcur := h.sync.sema.sched.running_mem
  obtain ⟨held, hg, hd⟩ := h.guarded _ hcur
  rw [hpc] at hg
  have hrun : (m.pc m.sched.runningThread).isRun := by rw [hpc]; trivial
  have hdepth : ∀ pf, m.depth m.sched.runningThread pf = (held pf).toNat := fun pf => by
    rw [← hd pf, Machine.depthOf, hpc]
    rfl
  have hstep : ∀ {d k' c}, poolGo k m.sched m.data = .ok (m.sched, d, k', c) →
      (∀ call, c = some call → call.Allowed (m.moved m.sched d k')) →
      ClientMoved m.sched d k' c m m' := by
    intro d k' c hexec hcall
    obtain ⟨m₁, heq, hm⟩ := poolClient.step_client h.sync (a := .go) hne hpc hexec
      (quiet_refl h.sync.sema) (fun _ _ => rfl) fun call hc => ⟨rfl, hcall call hc⟩
    exact Except.ok.inj (heq.symm.trans hok) ▸ hm
  have hfail : ∀ {e}, poolGo k m.sched m.data ≠ .error e := by
    intro e he
    have herr : poolClient.step (.client .go) m = .error e := by
      simp only [Client.step, Client.clientStep, hpc]
      show (poolGo k m.sched m.data >>= _) = _
      rw [he]
      rfl
    cases herr.symm.trans hok
  cases k with
  | set pf r ops =>
    obtain ⟨-, i, rfl, hi, hbit⟩ := h.scanned _ hcur pf r ops (by rw [hpc]; rfl)
    have hm := hstep (by rw [poolGo, pallocSet_nat, h.laidOut.frame]; rfl) (by simp)
    exact h.moved_palloc hi hbit hm hrun hg.1 hg.2 hd
  | rest ops =>
    cases ops with
    | nil => exact h.moved_quiet (hstep rfl (by simp)) hg hd fun pf r ops heq => by cases heq
    | cons op ops =>
      cases op with
      | lockAcquire pf =>
        refine h.moved_lock (hstep rfl fun call hc => ?_) hg.2 hd fun pf' => ?_
        · obtain rfl := Option.some.inj hc
          show m.depth m.sched.runningThread pf + 1 < 2 ^ 32
          rw [hdepth, hg.1]
          decide
        · rw [SyncCall.after]
          split
          · next heq => rw [← heq, hg.1]; rfl
          · rfl
      | lockRelease pf =>
        refine h.moved_lock (hstep rfl fun call hc => ?_) hg.2 hd fun pf' => ?_
        · obtain rfl := Option.some.inj hc
          show 0 < m.depth m.sched.runningThread pf
          rw [hdepth, hg.1]
          decide
        · rw [SyncCall.after]
          split
          · next heq => rw [← heq, hg.1]; rfl
          · rfl
      | palloc pf =>
        cases hscan : pallocScan false (m.data.pool pf) with
        | error e => exact absurd (by rw [poolGo, hscan]; rfl) (hfail (e := e))
        | ok r =>
          obtain ⟨i, rfl, hi, hbit⟩ := pallocScan_ok hscan
          rw [h.laidOut.frames] at hi
          have hm : ClientMoved m.sched m.data (.set pf i ops) none m m' :=
            hstep (by rw [poolGo, hscan]; rfl) (by simp)
          refine h.moved_quiet hm hg hd fun pf' r ops' heq => ?_
          obtain ⟨rfl, rfl, -⟩ := PoolPc.set.inj heq
          exact ⟨i, rfl, hi, hbit⟩
      | pfree a =>
        obtain ⟨⟨pf, hpf, i, hi, rfl⟩, hops⟩ := hg
        have hm := hstep (by rw [poolGo, h.laidOut.pfree_frame false pf hi]; rfl) (by simp)
        exact h.moved_pfree hi hm hops hd

theorem init (h : poolSystem.init m) : PoolInv m := by
  obtain ⟨hfresh, ⟨mem, hpool⟩, hlog⟩ := h
  have hrest : ∀ t, (m.pc t).client = .rest [] := by
    intro t
    obtain ⟨k, hk, hpc⟩ := hfresh.pc t
    rw [hpc]
    exact hk
  refine ⟨hfresh.syncInv, hpool ▸ memPoolInit_laidOut mem, fun pf i hi => ?_, ?_, fun t _ => ?_,
    fun t _ pf => hfresh.depthOf t pf, fun t _ pf r ops hk => ?_⟩
  · rw [hlog, hpool]
    show _ = false
    cases pf <;> exact (bit_bitmapInit _ i).trans (if_pos hi)
  · rw [hlog]
    intro later between earlier a heq
    exact absurd heq.symm (by simp)
  · exact ⟨fun _ => false, by rw [hrest]; exact fun _ => rfl, fun pf => hfresh.depthOf t pf⟩
  · rw [hrest] at hk
    exact nomatch hk

end PoolInv

/-- The step is not a call on a way into `palloc` that holds no lock of the kernel pool. -/
def LockedStep (_ : Machine PoolFlags PoolPc PoolState) (a : MachAct PoolPc PoolAct Empty) : Prop :=
  ∀ c, a = .client (.call c) → c.Locked

theorem PoolInv.step {m m' : Machine PoolFlags PoolPc PoolState} {a : MachAct PoolPc PoolAct Empty}
    (h : PoolInv m) (hlocked : LockedStep m a) (hstep : poolSystem.Step m a m') : PoolInv m' := by
  have hen : poolClient.Enabled m a := hstep.1
  rcases a.kernel_or with hk | ⟨b, rfl⟩ | ⟨a, rfl⟩
  · obtain ⟨m₁, heq, hinv, hframe⟩ := poolClient.step_kernel h.sync hk hen
    exact hstep.eq_of_ok heq ▸ h.frame hinv hframe
  · exact nomatch b
  · obtain ⟨hne, k, hpc, hguard⟩ := hen
    obtain ⟨held, hg, hd⟩ := h.guarded _ h.sync.sema.sched.running_mem
    rw [hpc] at hg
    cases a with
    | intr status =>
      obtain ⟨m₁, heq, hm⟩ := poolClient.step_client h.sync (a := .intr status) hne hpc rfl
        (quiet_intr h.sync.sema status) (fun t ht => intrOf_intrSetStatus m.sched status ht)
        (fun _ hc => by simp at hc)
      obtain rfl : k = .rest [] := hguard
      exact hstep.eq_of_ok heq ▸ h.moved_quiet hm hg hd fun pf r ops heq => nomatch heq
    | call c =>
      obtain ⟨m₁, heq, hm⟩ := poolClient.step_client h.sync (a := .call c) hne hpc rfl
        (quiet_refl h.sync.sema) (fun _ _ => rfl) (fun _ hc => by simp at hc)
      obtain rfl : k = .rest [] := hguard.1
      -- outside a call the thread has no lock
      have hheld : held = fun _ => false := funext hg
      have hbody : OriginOS.Guarded held c.body := hheld ▸ (hlocked c rfl).guarded
      exact hstep.eq_of_ok heq ▸ h.moved_quiet hm hbody hd fun pf r ops heq => nomatch heq
    | go => exact h.go hne hpc hstep.2

/-- The thread at this place is in `palloc` or `pfree` of pool `pf`. -/
def PoolPc.Uses (pf : PoolFlags) : PoolPc → Prop
  | .rest (.palloc pf' :: _) => pf' = pf
  | .rest (.pfree a :: _) => ∃ i < 3840, a = frameAddr pf i
  | .set pf' _ _ => pf' = pf
  | _ => False

theorem PoolPc.Uses.held {pf : PoolFlags} {k : PoolPc} {held : PoolFlags → Bool}
    (h : k.Uses pf) (hg : k.Guarded held) : held pf = true := by
  cases k with
  | set pf' r ops =>
    obtain rfl : pf' = pf := h
    exact hg.1
  | rest ops =>
    cases ops with
    | nil => exact absurd h id
    | cons op ops =>
      cases op with
      | lockAcquire pf' => exact absurd h id
      | lockRelease pf' => exact absurd h id
      | palloc pf' =>
        obtain rfl : pf' = pf := h
        exact hg.1
      | pfree a =>
        obtain ⟨i, hi, rfl⟩ := h
        obtain ⟨⟨pf', hpf, j, hj, heq⟩, -⟩ := hg
        exact (frameAddr_inj hi hj heq).1 ▸ hpf

/-- In every run whose calls all hold the lock of the pool that they take frames from, no frame is
handed out twice without a `pfree` in between, and a thread in `palloc` or `pfree` of a pool holds
the pool's lock. -/
theorem frames_handed_out_once
    (tr : List (Machine PoolFlags PoolPc PoolState × MachAct PoolPc PoolAct Empty))
    (m : Machine PoolFlags PoolPc PoolState) (run : poolSystem.Run tr m)
    (hlocked : ∀ p ∈ tr, LockedStep p.1 p.2) :
    HandedOutOnce m.data.log ∧
    ∀ t ∈ m.sched.threadAllList, ∀ k pf, m.pc t = .run k → k.Uses pf → m.holder pf = some t := by
  have hinv : PoolInv m := run.invariant_of (C := LockedStep) (fun _ => PoolInv.init)
    (fun _ _ _ hs hc hstep => hs.step hc hstep) hlocked
  refine ⟨hinv.once, fun t ht k pf hpc huses => ?_⟩
  obtain ⟨held, hg, hd⟩ := hinv.guarded t ht
  rw [hpc] at hg
  have hin := (hinv.lockHeld (by rw [hpc]; trivial) hd (huses.held hg)).inside
  rw [hpc] at hin
  exact hin.2.2.1

instance (c : PoolCall) : Decidable c.Locked :=
  match c with
  | .threadStart | .processExecute | .getKernelPages _ => .isFalse id
  | .getUserPages pdeAbsent => inferInstanceAs (Decidable (∀ absent ∈ pdeAbsent, absent = false))
  | .getAPage _ pdeAbsent => inferInstanceAs (Decidable (pdeAbsent = false))
  | .sysMalloc _ pdeAbsent => inferInstanceAs (Decidable (∀ absent ∈ pdeAbsent, absent = false))
  | .sysFree .. => .isTrue trivial

instance (m : Machine PoolFlags PoolPc PoolState) (a : MachAct PoolPc PoolAct Empty) :
    Decidable (LockedStep m a) :=
  match a with
  | .client (.call c) => decidable_of_iff c.Locked
      ⟨fun h _ heq => by cases heq; exact h, fun h => h c rfl⟩
  | .client (.intr _) | .client .go | .tick | .irq _ | .idleBlock | .idleHlt | .start .. | .sync =>
    .isTrue fun _ heq => nomatch heq

instance (t : Nat) (k : PoolPc) (s : Sched) (d : PoolState) (a : PoolAct) :
    Decidable (poolClient.guard t k s d a) :=
  match a with
  | .intr _ => inferInstanceAs (Decidable (k = .rest []))
  | .call c => inferInstanceAs (Decidable (k = .rest [] ∧ c.Possible))
  | .go => inferInstanceAs (Decidable (k ≠ .rest []))

instance : DecidablePred poolClient.start := fun k => inferInstanceAs (Decidable (k = .rest []))

instance (m : Machine PoolFlags PoolPc PoolState) (a : MachAct PoolPc PoolAct Empty) :
    Decidable (poolSystem.guard m a) :=
  poolClient.decidableEnabled m a

def poolBoot : Machine PoolFlags PoolPc PoolState :=
  freshMachine (.rest []) ⟨(memPoolInit 0x2000000 fun _ => 0).1, []⟩

theorem poolBoot_init : poolSystem.init poolBoot :=
  ⟨freshMachine_fresh poolClient.start rfl _, ⟨fun _ => 0, rfl⟩, rfl⟩

-- The parts of a list of acts have their types, so that no coercions between them are searched for.
abbrev PoolActs := List (MachAct PoolPc PoolAct Empty)

/-- The main thread is preempted in the `palloc` of its second page of `sys_malloc`, and thread `1`
waits for the lock in `sys_malloc`. -/
def mallocActs : List (MachAct PoolPc PoolAct Empty) :=
  ([.start 1 10 (.rest []), .client (.intr .on),
    .client (.call (.sysMalloc .kernel [false, false])), .client .go, .sync, .sync, .sync, .sync,
    .sync, .client .go, .client .go, .client .go] : PoolActs) ++
  (List.replicate 32 .tick : PoolActs) ++
  ([.idleBlock, .client (.call (.sysMalloc .kernel [false])), .client .go, .sync, .sync] : PoolActs)

def mallocWaits : Machine PoolFlags PoolPc PoolState :=
  ((poolSystem.restrict LockedStep).replay mallocActs poolBoot).getD poolBoot

theorem mallocWaits_reachable : (poolSystem.restrict LockedStep).Reachable mallocWaits :=
  (System.Reachable.init (S := poolSystem.restrict LockedStep) poolBoot_init).replay_getD mallocActs
    (by decide +kernel)

theorem frames_handed_out_once_mallocWaits :
    (mallocWaits.data.log = [.palloc 0x200000] ∧
      mallocWaits.pc 0xc009e000 = .run (.set .kernel 1 [.lockRelease .kernel]) ∧
      (mallocWaits.sema (.ofLock .kernel)).waiters = [1]) ∧
    HandedOutOnce mallocWaits.data.log ∧
    ∀ t ∈ mallocWaits.sched.threadAllList, ∀ k pf, mallocWaits.pc t = .run k → k.Uses pf →
      mallocWaits.holder pf = some t := by
  obtain ⟨tr, run⟩ := mallocWaits_reachable
  exact ⟨by decide +kernel,
    frames_handed_out_once tr mallocWaits run.of_restrict.1 run.of_restrict.2⟩

/-- Two threads run `thread_start`, and the first is preempted between `bitmap_scan` and
`bitmap_set`. -/
def startTwiceActs : List (MachAct PoolPc PoolAct Empty) :=
  ([.start 1 10 (.rest []), .client (.intr .on), .client (.call .threadStart), .client .go] :
    PoolActs) ++
  (List.replicate 32 .tick : PoolActs) ++
  ([.idleBlock, .client (.call .threadStart), .client .go, .client .go] : PoolActs) ++
  (List.replicate 11 .tick : PoolActs) ++ ([.client .go] : PoolActs)

def startTwice : Machine PoolFlags PoolPc PoolState :=
  (poolSystem.replay startTwiceActs poolBoot).getD poolBoot

/-- Both calls of `thread_start` get the frame at `0x200000`. -/
theorem frame_handed_out_twice : poolSystem.Reachable startTwice ∧
    startTwice.data.log = [.palloc 0x200000, .palloc 0x200000] ∧
    ¬ HandedOutOnce startTwice.data.log := by
  have hlog : startTwice.data.log = [.palloc 0x200000, .palloc 0x200000] := by decide +kernel
  refine ⟨(System.Reachable.init poolBoot_init).replay_getD startTwiceActs (by decide +kernel),
    hlog, fun honce => ?_⟩
  exact absurd (honce [] [] [] 0x200000 hlog) List.not_mem_nil

end OriginOS
