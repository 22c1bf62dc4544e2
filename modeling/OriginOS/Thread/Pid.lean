import Mathlib.Algebra.Group.Int.Defs
import Mathlib.Data.List.Perm.Subperm
import OriginOS.Thread.SyncRuns

/-! `allocate_pid` of `thread/thread.c`, called by any number of threads. The increment of
`next_pid` is under `pid_lock`; the value that is returned is read after `lock_release`. -/

namespace OriginOS

open Lib

/-- A place around `allocate_pid`: outside, before the load and before the store of `next_pid++`,
and before the load of the value that is returned. -/
inductive PidPc where
  | other
  | inc
  | store (n : Nat)
  | read
deriving DecidableEq, Repr

/-- `next_pid` as the 16 bits of an `int16_t`. `calls` counts the calls of `allocate_pid` and
`returned` lists what they returned; neither is part of the code. -/
structure PidData where
  nextPid : Nat
  calls : Nat
  returned : List Int
deriving DecidableEq, Repr

def pidValue (bits : Nat) : Int := if bits < 2 ^ 15 then bits else bits - 2 ^ 16

inductive PidAct where
  | intr (status : IntrStatus)
  | allocate
  | load
  | store
  | read
deriving DecidableEq, Repr

/-- Fewer than 32767 calls are made in total. -/
def pidGuard (d : PidData) : PidPc → PidAct → Bool
  | .other, .intr _ => true
  | .other, .allocate => d.calls + 1 < 32767
  | .inc, .load => true
  | .store _, .store => true
  | .read, .read => true
  | _, _ => false

theorem pidGuard_cases {d : PidData} {k : PidPc} {a : PidAct} (h : pidGuard d k a = true) :
    (k = .other ∧ ∃ status, a = .intr status) ∨
      (k = .other ∧ a = .allocate ∧ d.calls + 1 < 32767) ∨ (k = .inc ∧ a = .load) ∨
      (∃ n, k = .store n ∧ a = .store) ∨ k = .read ∧ a = .read := by
  unfold pidGuard at h
  split at h
  · next status => exact .inl ⟨rfl, status, rfl⟩
  · exact .inr (.inl ⟨rfl, rfl, of_decide_eq_true h⟩)
  · exact .inr (.inr (.inl ⟨rfl, rfl⟩))
  · next n => exact .inr (.inr (.inr (.inl ⟨n, rfl, rfl⟩)))
  · exact .inr (.inr (.inr (.inr ⟨rfl, rfl⟩)))
  · exact nomatch h

def pidExec (s : Sched) (d : PidData) : PidPc → PidAct →
    Sched × PidData × PidPc × Option (SyncCall Unit)
  | .other, .intr status => (intrSetStatus status s, d, .other, none)
  | .other, .allocate => (s, { d with calls := d.calls + 1 }, .inc, some (.lockAcquire ()))
  | .inc, .load => (s, d, .store ((d.nextPid + 1) % 2 ^ 16), none)
  | .store n, .store => (s, { d with nextPid := n }, .read, some (.lockRelease ()))
  | .read, .read => (s, { d with returned := d.returned ++ [pidValue d.nextPid] }, .other, none)
  | k, _ => (s, d, k, none)

def pidClient : Client Unit PidPc PidData PidAct Empty where
  start k := k = .other
  guard _ k _ d a := pidGuard d k a
  exec a _ k s d := pure (pidExec s d k a)
  handler b := nomatch b

def pidSystem : System (Machine Unit PidPc PidData) (MachAct PidPc PidAct Empty) Panic :=
  pidClient.system fun d => d = ⟨0, 0, []⟩

def PidPc.held : PidPc → Nat
  | .inc | .store _ => 1
  | .other | .read => 0

/-- The call has been made and `next_pid` not been incremented for it yet. -/
def PidPc.opening : PidPc → Bool
  | .inc | .store _ => true
  | .other | .read => false

/-- When a thread increments `next_pid`, every other thread that has incremented it has read it as
well. -/
def ReadBeforeNext (m : Machine Unit PidPc PidData) (a : MachAct PidPc PidAct Empty) : Prop :=
  a = .client .store → ∀ t ∈ m.sched.threadAllList, t ≠ m.sched.runningThread →
    (m.pc t).client ≠ .read

/-- The threads that are about to increment `next_pid`. -/
def Machine.openings (m : Machine Unit PidPc PidData) : List Nat :=
  m.sched.threadAllList.filter fun t => (m.pc t).client.opening

/-- What holds of `next_pid` and the values returned so far, in every run in which each value is
read before the next increment. -/
structure PidInv (m : Machine Unit PidPc PidData) : Prop where
  sync : SyncInv m
  nested : ∀ t ∈ m.sched.threadAllList, m.depthOf t () = (m.pc t).client.held
  unborn : ∀ t, t ∉ m.sched.threadAllList → m.depthOf t () = 0
  stores : ∀ t ∈ m.sched.threadAllList, ∀ n, (m.pc t).client = .store n →
    (m.pc t).isRun ∧ n = (m.data.nextPid + 1) % 2 ^ 16
  reads : ∀ t ∈ m.sched.threadAllList, ∀ u ∈ m.sched.threadAllList,
    (m.pc t).client = .read → (m.pc u).client = .read → t = u
  calls : m.data.nextPid + m.openings.length ≤ m.data.calls
  bound : m.data.calls < 32767
  nodup : m.data.returned.Nodup
  values : ∀ v ∈ m.data.returned, 0 < v ∧ v ≤ m.data.nextPid
  unread : ∀ t ∈ m.sched.threadAllList, (m.pc t).client = .read →
    0 < m.data.nextPid ∧ ∀ v ∈ m.data.returned, v < m.data.nextPid

theorem length_filter_erase {l : List Nat} {x : Nat} (hx : x ∈ l) (p : Nat → Bool) :
    (l.filter p).length = ((l.erase x).filter p).length + (p x).toNat := by
  rw [((List.perm_cons_erase hx).filter p).length_eq, List.filter_cons]
  cases p x with
  | true => rfl
  | false => rfl

namespace PidInv

variable {m m' : Machine Unit PidPc PidData}

theorem allNodup (h : SyncInv m) : m.sched.threadAllList.Nodup := h.sema.sched.allNodup

theorem frame (h : PidInv m) (hinv : SyncInv m') (hframe : Frame pidClient.start m m') :
    PidInv m' := by
  -- a new thread is outside, the others are where they were
  have hclient : ∀ t ∈ m'.sched.threadAllList, (m'.pc t).client ≠ .other →
      t ∈ m.sched.threadAllList ∧ (m'.pc t).client = (m.pc t).client := by
    intro t ht hne
    by_cases hold : t ∈ m.sched.threadAllList
    · exact ⟨hold, hframe.client t hold⟩
    · obtain ⟨k, hk, hpc⟩ := hframe.born t ht hold
      rw [hpc] at hne
      exact absurd hk hne
  refine ⟨hinv, fun t ht => ?_, fun t ht => ?_,
    fun t ht n hn => ?_, fun t ht u hu htr hur => ?_, ?_, ?_,
    ?_, ?_, fun t ht htr => ?_⟩
  · rw [hframe.depthOf]
    by_cases hold : t ∈ m.sched.threadAllList
    · rw [hframe.client t hold, h.nested t hold]
    · obtain ⟨k, hk, hpc⟩ := hframe.born t ht hold
      rw [h.unborn t hold, hpc, show k = .other from hk]
      rfl
  · rw [hframe.depthOf]
    exact h.unborn t fun hold => ht (hframe.all t hold)
  · obtain ⟨hold, heq⟩ := hclient t ht (by rw [hn]; exact nofun)
    obtain ⟨hrun, hval⟩ := h.stores t hold n (heq ▸ hn)
    exact ⟨not_not.mp fun hnot => hframe.inside t hnot hrun, by rw [hframe.data]; exact hval⟩
  · obtain ⟨hold, heq⟩ := hclient t ht (by rw [htr]; exact nofun)
    obtain ⟨hold', heq'⟩ := hclient u hu (by rw [hur]; exact nofun)
    exact h.reads t hold u hold' (heq ▸ htr) (heq' ▸ hur)
  · have hsub : m'.openings ⊆ m.openings := by
      intro t ht
      obtain ⟨ht, hopen⟩ := List.mem_filter.mp ht
      obtain ⟨hold, heq⟩ := hclient t ht (fun hother => by rw [hother] at hopen; cases hopen)
      exact List.mem_filter.mpr ⟨hold, heq ▸ hopen⟩
    have hle := (List.Nodup.subperm ((allNodup hinv).filter _) hsub).length_le
    have := h.calls
    rw [hframe.data]
    unfold Machine.openings at *
    omega
  · rw [hframe.data]
    exact h.bound
  · rw [hframe.data]
    exact h.nodup
  · rw [hframe.data]
    exact h.values
  · obtain ⟨hold, heq⟩ := hclient t ht (by rw [htr]; exact nofun)
    rw [hframe.data]
    exact h.unread t hold (heq ▸ htr)

theorem openings_moved (h : SyncInv m) {s' : Sched} {d : PidData} {k k' : PidPc}
    {c : Option (SyncCall Unit)} (hpc : m.pc m.sched.runningThread = .run k)
    (hmoved : ClientMoved s' d k' c m m') :
    m'.openings.length + k.opening.toNat = m.openings.length + k'.opening.toNat := by
  have hmem := h.sema.sched.running_mem
  have hcur := length_filter_erase hmem fun t => (m.pc t).client.opening
  have hcur' := length_filter_erase hmem fun t => (m'.pc t).client.opening
  have hsame : (m.sched.threadAllList.erase m.sched.runningThread).filter
      (fun t => (m'.pc t).client.opening) =
      (m.sched.threadAllList.erase m.sched.runningThread).filter
      fun t => (m.pc t).client.opening := by
    refine List.filter_congr fun t ht => ?_
    rw [hmoved.pc t ((List.Nodup.mem_erase_iff (allNodup h)).mp ht).1]
  rw [hsame, hmoved.client] at hcur'
  rw [hpc] at hcur
  unfold Machine.openings
  rw [hmoved.all, hcur', hcur]
  simp only [Pc.client]
  omega

theorem moved (h : PidInv m) {s' : Sched} {d : PidData} {k k' : PidPc}
    {c : Option (SyncCall Unit)} (hpc : m.pc m.sched.runningThread = .run k)
    (hmoved : ClientMoved s' d k' c m m') (hheld : c.elim k.held (·.after () k.held) = k'.held)
    (hown : ∀ n, k' = .store n → c = none ∧ n = (d.nextPid + 1) % 2 ^ 16)
    (hstores : ∀ t ∈ m.sched.threadAllList, t ≠ m.sched.runningThread → ∀ n,
      (m.pc t).client = .store n → d.nextPid = m.data.nextPid)
    (hreads : k' = .read → ∀ t ∈ m.sched.threadAllList, t ≠ m.sched.runningThread →
      (m.pc t).client ≠ .read)
    (hcalls : d.nextPid + m.openings.length + k'.opening.toNat ≤ d.calls + k.opening.toNat)
    (hbound : d.calls < 32767) (hnodup : d.returned.Nodup)
    (hvalues : ∀ v ∈ d.returned, 0 < v ∧ v ≤ d.nextPid)
    (hunread : k' = .read ∨ (∃ t ∈ m.sched.threadAllList, t ≠ m.sched.runningThread ∧
      (m.pc t).client = .read) → 0 < d.nextPid ∧ ∀ v ∈ d.returned, v < d.nextPid) : PidInv m' := by
  have hcur : m.depthOf m.sched.runningThread () = k.held := by
    rw [h.nested _ h.sync.sema.sched.running_mem, hpc]
    rfl
  have hopen := openings_moved h.sync hpc hmoved
  refine ⟨hmoved.inv, fun t ht => ?_, fun t ht => ?_,
    fun t ht n hn => ?_, fun t ht u hu htr hur => ?_,
    ?_, ?_, ?_, ?_, fun t ht htr => ?_⟩
  · rw [hmoved.depthOf]
    split
    · next heq => rw [heq, hcur, hmoved.client, hheld]
    · next hne => rw [hmoved.pc t hne, h.nested t (hmoved.all ▸ ht)]
  · rw [hmoved.all] at ht
    have hne : t ≠ m.sched.runningThread := fun heq => ht (heq ▸ h.sync.sema.sched.running_mem)
    rw [hmoved.depthOf, if_neg hne, h.unborn t ht]
  · rw [hmoved.all] at ht
    rw [hmoved.data]
    by_cases heq : t = m.sched.runningThread
    · subst heq
      rw [hmoved.client] at hn
      obtain ⟨hnone, hval⟩ := hown n hn
      exact ⟨hmoved.returned hnone, hval⟩
    · rw [hmoved.pc t heq] at hn ⊢
      obtain ⟨hrun, hval⟩ := h.stores t ht n hn
      exact ⟨hrun, by rw [hstores t ht heq n hn]; exact hval⟩
  · rw [hmoved.all] at ht hu
    by_cases heq : t = m.sched.runningThread
    · by_cases heq' : u = m.sched.runningThread
      · rw [heq, heq']
      · rw [heq, hmoved.client] at htr
        rw [hmoved.pc u heq'] at hur
        exact absurd hur (hreads htr u hu heq')
    · rw [hmoved.pc t heq] at htr
      by_cases heq' : u = m.sched.runningThread
      · rw [heq', hmoved.client] at hur
        exact absurd htr (hreads hur t ht heq)
      · rw [hmoved.pc u heq'] at hur
        exact h.reads t ht u hu htr hur
  · rw [hmoved.data]
    omega
  · rw [hmoved.data]
    exact hbound
  · rw [hmoved.data]
    exact hnodup
  · rw [hmoved.data]
    exact hvalues
  · rw [hmoved.all] at ht
    rw [hmoved.data]
    by_cases heq : t = m.sched.runningThread
    · rw [heq, hmoved.client] at htr
      exact hunread (.inl htr)
    · rw [hmoved.pc t heq] at htr
      exact hunread (.inr ⟨t, ht, heq, htr⟩)

theorem lockHeld (h : PidInv m) {t : Nat} (ht : t ∈ m.sched.threadAllList) {k : PidPc}
    (hpc : m.pc t = .run k) (hk : k.held = 1) : LockHeld m () t := by
  refine (h.sync.lock ()).held fun hout => ?_
  have hdepth := h.nested t ht
  rw [Machine.depthOf, hpc] at hdepth
  rw [hpc] at hout
  have hzero : m.depth t () = 0 := hout
  have hone : m.depth t () = 1 := hdepth.trans hk
  omega

theorem exclusive (h : PidInv m) {t u : Nat} (ht : t ∈ m.sched.threadAllList)
    (hu : u ∈ m.sched.threadAllList) {k l : PidPc} (htk : m.pc t = .run k) (hul : m.pc u = .run l)
    (hk : k.held = 1) (hl : l.held = 1) : t = u := by
  by_contra hne
  exact (h.lockHeld ht htk hk).inside.not_outside ((h.lockHeld hu hul hl).outside t hne)

/-- A thread at the load or the store of `next_pid++` is one of those about to increment. -/
theorem openings_pos (h : PidInv m) {k : PidPc} (hpc : m.pc m.sched.runningThread = .run k)
    (hk : k.opening = true) : 0 < m.openings.length := by
  refine List.length_pos_of_mem (a := m.sched.runningThread) (List.mem_filter.mpr ⟨?_, ?_⟩)
  · exact h.sync.sema.sched.running_mem
  · rw [hpc]
    exact hk

theorem depth_eq (h : PidInv m) {k : PidPc} (hpc : m.pc m.sched.runningThread = .run k) :
    m.depth m.sched.runningThread () = k.held := by
  have hnested := h.nested _ h.sync.sema.sched.running_mem
  rw [Machine.depthOf, hpc] at hnested
  exact hnested

/-- What `next_pid` must be while a thread has to read it, for a step that makes no such thread. -/
theorem unread_kept (h : PidInv m) {k' : PidPc} (hk : k' ≠ .read) :
    k' = .read ∨ (∃ t ∈ m.sched.threadAllList, t ≠ m.sched.runningThread ∧
      (m.pc t).client = .read) →
      0 < m.data.nextPid ∧ ∀ v ∈ m.data.returned, v < m.data.nextPid := by
  rintro (hread | ⟨t, ht, -, hread⟩)
  · exact absurd hread hk
  · exact h.unread t ht hread

theorem intr_step (h : PidInv m) (hne : m.sched.runningThread ≠ m.sched.idleThread)
    (hpc : m.pc m.sched.runningThread = .run .other) (status : IntrStatus) :
    ∃ m', pidClient.step (.client (.intr status)) m = .ok m' ∧ PidInv m' := by
  obtain ⟨m', heq, hmoved⟩ := pidClient.step_client h.sync (a := .intr status) hne hpc rfl
    (quiet_intr h.sync.sema status) (fun t ht => intrOf_intrSetStatus m.sched status ht)
    (fun _ hc => by simp at hc)
  exact ⟨m', heq, h.moved hpc hmoved rfl nofun (fun _ _ _ _ _ => rfl) nofun h.calls h.bound h.nodup
    h.values (h.unread_kept nofun)⟩

theorem allocate_step (h : PidInv m) (hne : m.sched.runningThread ≠ m.sched.idleThread)
    (hpc : m.pc m.sched.runningThread = .run .other) (hfew : m.data.calls + 1 < 32767) :
    ∃ m', pidClient.step (.client .allocate) m = .ok m' ∧ PidInv m' := by
  have hcalls := h.calls
  have hallowed : m.depth m.sched.runningThread () + 1 < 2 ^ 32 := by
    rw [h.depth_eq hpc]
    decide
  obtain ⟨m', heq, hmoved⟩ := pidClient.step_client h.sync (a := .allocate) hne hpc rfl
    (quiet_refl h.sync.sema) (fun _ _ => rfl) (fun call hc => ⟨rfl, Option.some.inj hc ▸ hallowed⟩)
  refine ⟨m', heq, h.moved hpc hmoved rfl nofun (fun _ _ _ _ _ => rfl) nofun ?_ hfew h.nodup
    h.values (h.unread_kept nofun)⟩
  show m.data.nextPid + m.openings.length + 1 ≤ m.data.calls + 1 + 0
  omega

theorem load_step (h : PidInv m) (hne : m.sched.runningThread ≠ m.sched.idleThread)
    (hpc : m.pc m.sched.runningThread = .run .inc) :
    ∃ m', pidClient.step (.client .load) m = .ok m' ∧ PidInv m' := by
  have hcalls := h.calls
  obtain ⟨m', heq, hmoved⟩ := pidClient.step_client h.sync (a := .load) hne hpc rfl
    (quiet_refl h.sync.sema) (fun _ _ => rfl) (fun _ hc => by simp at hc)
  refine ⟨m', heq, h.moved hpc hmoved rfl ?_ (fun _ _ _ _ _ => rfl) nofun ?_ h.bound h.nodup
    h.values (h.unread_kept nofun)⟩
  · rintro n ⟨⟩
    exact ⟨rfl, rfl⟩
  · show m.data.nextPid + m.openings.length + 1 ≤ m.data.calls + 1
    omega

/-- A thread that is about to store runs in the section, so there is no other. -/
theorem store_unique (h : PidInv m) {t n l : Nat} (ht : t ∈ m.sched.threadAllList)
    (hstore : (m.pc t).client = .store l) (hpc : m.pc m.sched.runningThread = .run (.store n)) :
    t = m.sched.runningThread := by
  obtain ⟨hrun, -⟩ := h.stores t ht l hstore
  cases hpct : m.pc t with
  | run k =>
    rw [hpct] at hstore
    obtain rfl : k = .store l := hstore
    exact h.exclusive ht h.sync.sema.sched.running_mem hpct hpc rfl rfl
  | down r old k =>
    rw [hpct] at hrun
    exact absurd hrun id
  | lock i q k =>
    rw [hpct] at hrun
    exact absurd hrun id

theorem store_step (h : PidInv m) (hne : m.sched.runningThread ≠ m.sched.idleThread) {n : Nat}
    (hpc : m.pc m.sched.runningThread = .run (.store n))
    (hread : ∀ t ∈ m.sched.threadAllList, t ≠ m.sched.runningThread → (m.pc t).client ≠ .read) :
    ∃ m', pidClient.step (.client .store) m = .ok m' ∧ PidInv m' := by
  have hcalls := h.calls
  have hbound := h.bound
  have hpos := h.openings_pos hpc rfl
  obtain ⟨-, hn⟩ := h.stores _ h.sync.sema.sched.running_mem n (by rw [hpc]; rfl)
  -- the increment does not wrap around
  have hnext : n = m.data.nextPid + 1 := by omega
  have hallowed : 0 < m.depth m.sched.runningThread () := by
    rw [h.depth_eq hpc]
    exact Nat.one_pos
  obtain ⟨m', heq, hmoved⟩ := pidClient.step_client h.sync (a := .store) hne hpc rfl
    (quiet_refl h.sync.sema) (fun _ _ => rfl) (fun call hc => ⟨rfl, Option.some.inj hc ▸ hallowed⟩)
  refine ⟨m', heq, h.moved hpc hmoved rfl nofun (fun t ht hother l hl => ?_) (fun _ => hread) ?_
    hbound h.nodup (fun v hv => ?_) fun _ => ⟨?_, fun v hv => ?_⟩⟩
  · exact absurd (h.store_unique ht hl hpc) hother
  · show n + m.openings.length + 0 ≤ m.data.calls + 1
    omega
  · obtain ⟨hlow, hle⟩ := h.values v hv
    refine ⟨hlow, ?_⟩
    show v ≤ (n : Int)
    omega
  · show 0 < n
    omega
  · have hle := (h.values v hv).2
    show v < (n : Int)
    omega

theorem read_step (h : PidInv m) (hne : m.sched.runningThread ≠ m.sched.idleThread)
    (hpc : m.pc m.sched.runningThread = .run .read) :
    ∃ m', pidClient.step (.client .read) m = .ok m' ∧ PidInv m' := by
  have hcalls := h.calls
  have hbound := h.bound
  have hmem := h.sync.sema.sched.running_mem
  have hself : (m.pc m.sched.runningThread).client = .read := by rw [hpc]; rfl
  obtain ⟨hpos, hless⟩ := h.unread _ hmem hself
  have hpid : pidValue m.data.nextPid = m.data.nextPid := by
    rw [pidValue, if_pos (by omega)]
  obtain ⟨m', heq, hmoved⟩ := pidClient.step_client h.sync (a := .read) hne hpc rfl
    (quiet_refl h.sync.sema) (fun _ _ => rfl) (fun _ hc => by simp at hc)
  refine ⟨m', heq, h.moved hpc hmoved rfl nofun (fun _ _ _ _ _ => rfl) nofun hcalls hbound ?_
    (fun v hv => ?_) ?_⟩
  · refine List.nodup_append.mpr ⟨h.nodup, List.nodup_singleton _, fun v hv w hw => ?_⟩
    rw [List.mem_singleton.mp hw, hpid]
    exact Int.ne_of_lt (hless v hv)
  · rcases List.mem_append.mp hv with hv | hv
    · exact h.values v hv
    · rw [List.mem_singleton.mp hv, hpid]
      exact ⟨by omega, Int.le_refl _⟩
  · -- the thread that reads was the only one
    rintro (hread | ⟨t, ht, hother, hread⟩)
    · cases hread
    · exact absurd (h.reads t ht _ hmem hread hself) hother

/-- Every step returns, and keeps the invariant if it is not a store that comes too early. -/
theorem step (h : PidInv m) {a : MachAct PidPc PidAct Empty} (hen : pidClient.Enabled m a)
    (hcond : ReadBeforeNext m a) : ∃ m', pidClient.step a m = .ok m' ∧ PidInv m' := by
  rcases a.kernel_or with hk | ⟨b, rfl⟩ | ⟨a, rfl⟩
  · obtain ⟨m', heq, hinv, hframe⟩ := pidClient.step_kernel h.sync hk hen
    exact ⟨m', heq, h.frame hinv hframe⟩
  · exact nomatch b
  obtain ⟨hne, k, hpc, hguard⟩ := hen
  rcases pidGuard_cases hguard with ⟨rfl, status, rfl⟩ | ⟨rfl, rfl, hfew⟩ | ⟨rfl, rfl⟩ |
    ⟨n, rfl, rfl⟩ | ⟨rfl, rfl⟩
  · exact h.intr_step hne hpc status
  · exact h.allocate_step hne hpc hfew
  · exact h.load_step hne hpc
  · exact h.store_step hne hpc (hcond rfl)
  · exact h.read_step hne hpc

theorem init (h : pidSystem.init m) : PidInv m := by
  obtain ⟨hfresh, hdata⟩ := h
  have hother : ∀ t, m.pc t = .run .other := by
    intro t
    obtain ⟨k, hk, hpc⟩ := hfresh.pc t
    rw [hpc, show k = .other from hk]
  have hnone : m.openings = [] := by
    refine List.filter_eq_nil_iff.mpr fun t _ => ?_
    rw [hother t]
    exact nofun
  refine ⟨hfresh.syncInv, fun t _ => ?_, fun t _ => hfresh.depthOf t (), fun t _ n hn => ?_,
    fun t _ _ _ htr => ?_, ?_, ?_, ?_, ?_, fun t _ htr => ?_⟩
  · rw [hfresh.depthOf, hother t]
    rfl
  · rw [hother t] at hn
    cases hn
  · rw [hother t] at htr
    cases htr
  · rw [hnone, hdata]
    exact Nat.le_refl 0
  · rw [hdata]
    decide
  · rw [hdata]
    exact List.nodup_nil
  · rw [hdata]
    exact nofun
  · rw [hother t] at htr
    cases htr

end PidInv

/-- In every run in which each thread reads `next_pid` before another one increments it, the values
returned are distinct and positive, and every step returns. -/
theorem pid_unique (tr : List (Machine Unit PidPc PidData × MachAct PidPc PidAct Empty))
    (m : Machine Unit PidPc PidData) (run : pidSystem.Run tr m)
    (hcond : ∀ p ∈ tr, ReadBeforeNext p.1 p.2) :
    m.data.returned.Nodup ∧ (∀ v ∈ m.data.returned, 0 < v) ∧
      ∀ a, pidClient.Enabled m a → ReadBeforeNext m a → ∃ m', pidClient.step a m = .ok m' := by
  have inv : PidInv m := by
    refine run.invariant_of (fun _ => PidInv.init) (fun s a t hinv hcond hstep => ?_) hcond
    obtain ⟨t', heq, hinv'⟩ := hinv.step hstep.1 hcond
    exact hstep.eq_of_ok heq ▸ hinv'
  refine ⟨inv.nodup, fun v hv => (inv.values v hv).1, fun a hen hc => ?_⟩
  obtain ⟨m', heq, -⟩ := inv.step hen hc
  exact ⟨m', heq⟩

instance (t : Nat) (k : PidPc) (s : Sched) (d : PidData) (a : PidAct) :
    Decidable (pidClient.guard t k s d a) :=
  inferInstanceAs (Decidable (pidGuard d k a = true))

instance : DecidablePred pidClient.start := fun k => inferInstanceAs (Decidable (k = .other))

instance (m : Machine Unit PidPc PidData) (a : MachAct PidPc PidAct Empty) :
    Decidable (pidSystem.guard m a) :=
  inferInstanceAs (Decidable (pidClient.Enabled m a))

instance (m : Machine Unit PidPc PidData) (a : MachAct PidPc PidAct Empty) :
    Decidable (ReadBeforeNext m a) :=
  inferInstanceAs (Decidable (a = _ → _))

-- The parts of a list of acts have their types, so that no coercions between them are searched for.
abbrev PidActs := List (MachAct PidPc PidAct Empty)

/-- `allocate_pid` up to its return, without a switch. -/
def allocateActs : List (MachAct PidPc PidAct Empty) :=
  [.client .allocate, .sync, .sync, .sync, .sync, .sync, .client .load, .client .store,
    .sync, .sync, .sync, .sync, .sync, .sync]

def bootPids : Machine Unit PidPc PidData := freshMachine .other ⟨0, 0, []⟩

def twoActs : List (MachAct PidPc PidAct Empty) :=
  allocateActs ++ ([.client .read] : PidActs) ++ allocateActs ++ ([.client .read] : PidActs)

theorem pid_unique_two : ∃ m, pidSystem.Reachable m ∧ m.data.returned = [1, 2] ∧
    m.data.returned.Nodup ∧ ∀ v ∈ m.data.returned, 0 < v := by
  have hsome : ((pidSystem.restrict ReadBeforeNext).replay twoActs bootPids).isSome = true := by
    decide +kernel
  have hstart : (pidSystem.restrict ReadBeforeNext).Reachable bootPids :=
    .init ⟨freshMachine_fresh pidClient.start (show pidClient.start .other from rfl) _, rfl⟩
  obtain ⟨tr, run⟩ := hstart.replay_getD twoActs hsome
  obtain ⟨run, hcond⟩ := run.of_restrict
  obtain ⟨hnodup, hpos, -⟩ := pid_unique tr _ run hcond
  refine ⟨_, ⟨tr, run⟩, ?_, hnodup, hpos⟩
  decide +kernel

/-- A switch between the `lock_release` and the `return` of the main thread, to a thread that gets
an id as well: both get the same. -/
def racingActs : List (MachAct PidPc PidAct Empty) :=
  ([.start 1 10 .other, .client (.intr .on)] : PidActs) ++ allocateActs ++
    (List.replicate 32 .tick : PidActs) ++ ([.idleBlock] : PidActs) ++ allocateActs ++
    ([.client .read, .client (.intr .on)] : PidActs) ++ (List.replicate 11 .tick : PidActs) ++
    ([.client .read] : PidActs)

theorem pid_twice : ∃ m, pidSystem.Reachable m ∧ m.data.calls = 2 ∧ m.data.returned = [2, 2] := by
  have hsome : (pidSystem.replay racingActs bootPids).isSome = true := by decide +kernel
  have hreach : pidSystem.Reachable bootPids :=
    .init ⟨freshMachine_fresh pidClient.start (show pidClient.start .other from rfl) _, rfl⟩
  exact ⟨_, hreach.replay_getD racingActs hsome, by decide +kernel, by decide +kernel⟩

end OriginOS
