import OriginOS.Kernel.Exhaustion
import OriginOS.Kernel.FailedPages

/-! The locks of the two pools around the calls that take them, in a kernel compiled with `NDEBUG`.
Between `lock_acquire` and `lock_release` nothing changes a lock; `get_a_page` returns without the
second when it gets no frame. -/

namespace OriginOS

open Lib

/-- The lock after a `lock_acquire` that does not block. -/
def Lock.acquired (l : Lock) (thread : Nat) : Lock :=
  if l.holder ≠ some thread then ⟨(l.value + 2 ^ 8 - 1) % 2 ^ 8, some thread, 1⟩
  else { l with holderRepeatNr := (l.holderRepeatNr + 1) % 2 ^ 32 }

/-- The lock after a `lock_release` without the assertions. -/
def Lock.released (l : Lock) : Lock :=
  if l.holderRepeatNr > 1 then { l with holderRepeatNr := l.holderRepeatNr - 1 }
  else ⟨(l.value + 1) % 2 ^ 8, none, 0⟩

/-- The holder and `holder_repeat_nr` are the same. -/
def Lock.Agrees (l l' : Lock) : Prop :=
  l'.holder = l.holder ∧ l'.holderRepeatNr = l.holderRepeatNr

/-- A lock that nobody holds, or that the thread holds and may take once more. -/
def Lock.Fine (l : Lock) (thread : Nat) : Prop :=
  (l.holder = none ∧ l.holderRepeatNr = 0) ∨
    (l.holder = some thread ∧ 1 ≤ l.holderRepeatNr ∧ l.holderRepeatNr < 2 ^ 32 - 1)

theorem Lock.agrees_released_iff (l : Lock) (thread : Nat) :
    l.Agrees (l.acquired thread).released ↔ l.Fine thread := by
  unfold Agrees Fine acquired released
  by_cases hheld : l.holder = some thread
  · rw [if_neg (not_not_intro hheld), hheld]
    dsimp only
    split
    · have : (some thread = none) = False := by simp
      simp only [this, false_and, false_or, true_and]
      omega
    · simp only [reduceCtorEq, false_and, true_and, false_or, false_iff]
      omega
  · rw [if_pos hheld]
    dsimp only
    rw [if_neg (Nat.lt_irrefl 1)]
    simp only [hheld, false_and, or_false]
    exact ⟨fun h => ⟨h.1.symm, h.2.symm⟩, fun h => ⟨h.1.symm, h.2.symm⟩⟩

theorem Lock.not_agrees_acquired (l : Lock) (thread : Nat) : ¬ l.Agrees (l.acquired thread) := by
  unfold Agrees acquired
  by_cases hheld : l.holder = some thread
  · rw [if_neg (not_not_intro hheld)]
    dsimp only
    omega
  · rw [if_pos hheld]
    exact fun h => hheld h.1.symm

def Balanced (s t : MemState) : Prop := ∀ pf, (s.lock pf).Agrees (t.lock pf)

section Locks

variable {s t : MemState} {pf : PoolFlags} {l : Lock}

theorem balanced_update (h : t.lock = Function.update s.lock pf l) :
    Balanced s t ↔ (s.lock pf).Agrees l := by
  unfold Balanced
  rw [h]
  constructor
  · intro hall
    have hpf := hall pf
    rwa [Function.update_self] at hpf
  · intro hl q
    by_cases hq : q = pf
    · rw [hq, Function.update_self]
      exact hl
    · rw [Function.update_of_ne hq]
      exact ⟨rfl, rfl⟩

theorem balanced_of_lock_eq (h : t.lock = s.lock) : Balanced s t := fun pf => by
  rw [h]
  exact ⟨rfl, rfl⟩

theorem assert_ndebug (hnd : s.ndebug = true) (c : Bool) (p : Panic) :
    Mem.assert c p s = .ok ((), s) := by
  unfold Mem.assert
  rw [Mem.read_bind, hnd]
  rfl

theorem Mem.lockAcquire_ndebug (hnd : s.ndebug = true) {u : Unit}
    (h : Mem.lockAcquire pf s = .ok (u, t)) :
    t = s.setLock pf ((s.lock pf).acquired s.runningThread) := by
  unfold Mem.lockAcquire at h
  rw [Mem.read_bind] at h
  unfold Lock.acquired
  dsimp only at h
  split at h
  · next hother =>
    rw [if_pos hother]
    split at h
    · exact nomatch h
    · rw [bind_of_ok (assert_ndebug hnd _ _), bind_of_ok (assert_ndebug hnd _ _)] at h
      exact (congrArg Prod.snd (Except.ok.inj h)).symm
  · next hheld =>
    rw [if_neg hheld]
    exact (congrArg Prod.snd (Except.ok.inj h)).symm

theorem Mem.lockRelease_ndebug (hnd : s.ndebug = true) :
    Mem.lockRelease pf s = .ok ((), s.setLock pf (s.lock pf).released) := by
  unfold Mem.lockRelease Lock.released
  rw [Mem.read_bind]
  dsimp only
  rw [bind_of_ok (assert_ndebug hnd _ _)]
  split
  · rfl
  · rw [bind_of_ok (assert_ndebug hnd _ _), bind_of_ok (assert_ndebug hnd _ _),
      bind_of_ok (assert_ndebug hnd _ _)]
    rfl

end Locks

/-! ### Code between `lock_acquire` and `lock_release` -/

/-- What `lock_acquire` and `lock_release` go by. -/
def MemState.locks (s : MemState) : (PoolFlags → Lock) × Nat × Bool :=
  (s.lock, s.runningThread, s.ndebug)

theorem offPages_locks : OffPages MemState.locks where
  phys _ _ := rfl
  pool _ _ := rfl
  range _ pf _ := by cases pf <;> rfl

/-- Code that ends with the release of the lock, and does not use the locks before that. -/
def Unlocks (pf : PoolFlags) {α : Type} (x : Mem α) : Prop :=
  ∀ s, s.ndebug = true → Ensures x (fun _ => True)
    (fun _ t => t.lock = Function.update s.lock pf (s.lock pf).released) s

section Unlocking

variable {α β : Type} {pf : PoolFlags} {s t : MemState}

theorem unlocks_lockRelease (pf : PoolFlags) : Unlocks pf (Mem.lockRelease pf) := fun _ hnd =>
  ensures_of_ok (Mem.lockRelease_ndebug hnd) rfl

theorem unlocks_release (pf : PoolFlags) (a : α) :
    Unlocks pf (Mem.lockRelease pf >>= fun _ => pure a) :=
  fun s hnd => (unlocks_lockRelease pf s hnd).bind fun _ _ ht => ensures_pure ht

theorem Unlocks.after {x : Mem α} {k : α → Mem β} (hx : Keeps MemState.locks x)
    (hk : ∀ a, Unlocks pf (k a)) : Unlocks pf (x >>= k) := by
  intro s hnd
  refine (hx s).bind fun a t ht => ?_
  have hlock : t.lock = s.lock := congrArg (·.1) ht
  have hnd' : t.ndebug = true := (congrArg (·.2.2) ht).trans hnd
  have := hk a t hnd'
  rwa [hlock] at this

theorem Unlocks.ite {c : Prop} [Decidable c] {x y : Mem α} (hx : Unlocks pf x) (hy : Unlocks pf y) :
    Unlocks pf (if c then x else y) := by
  split
  · exact hx
  · exact hy

/-- A section between the two calls that returns is balanced exactly when the lock was fine. -/
theorem Unlocks.balanced_iff {x : Mem α} (hx : Unlocks pf x) (hnd : s.ndebug = true) {a : α}
    (h : (Mem.lockAcquire pf >>= fun _ => x) s = .ok (a, t)) :
    Balanced s t ↔ (s.lock pf).Fine s.runningThread := by
  obtain ⟨u, s₁, hacquire, hrest⟩ := exists_of_bind_ok h
  obtain rfl := Mem.lockAcquire_ndebug hnd hacquire
  have hlock := (hx (s.setLock pf ((s.lock pf).acquired s.runningThread)) hnd).ok hrest
  rw [← Lock.agrees_released_iff]
  refine balanced_update (hlock.trans ?_)
  show Function.update (Function.update s.lock pf _) pf
    (Function.update s.lock pf _ pf).released = _
  rw [Function.update_self, Function.update_idem]

end Unlocking

/-! ### The calls -/

inductive LockedCall
  | getUserPages (pgCnt : Nat)
  | getAPage (pf : PoolFlags) (vaddr : Nat)
  | sysMalloc (size : Nat)
  | sysFree (ptr : Nat)

/-- The call, with the pointer that it returns; `sys_free` returns none. -/
def LockedCall.run : LockedCall → Mem Nat
  | getUserPages pgCnt => Mem.getUserPages pgCnt
  | getAPage pf vaddr => Mem.getAPage pf vaddr
  | sysMalloc size => Mem.sysMalloc size
  | sysFree ptr => do
    Mem.sysFree ptr
    pure 0

/-- The pool that the running thread allocates from. -/
def MemState.ownPool (s : MemState) : PoolFlags :=
  if (s.task s.runningThread).pgdir = 0 then .kernel else .user

theorem MemState.ite_pgdir (s : MemState) :
    (if (s.task s.runningThread).pgdir = 0 then PoolFlags.kernel else .user) = s.ownPool := rfl

def MemState.bitIdx (s : MemState) (pf : PoolFlags) (vaddr : Nat) : Nat :=
  (vaddr + 2 ^ 32 - (s.vaddr pf).vaddrStart) % 2 ^ 32 / pgSize

def SameRange (pf : PoolFlags) (s t : MemState) : Prop :=
  ∀ k < 8 * (s.vaddr pf).vaddrBitmap.btmpBytesLen,
    (t.vaddr pf).vaddrBitmap.bit k = (s.vaddr pf).vaddrBitmap.bit k

/-- `palloc` has a frame to give, at another address than 0. -/
def Pool.Gives (p : Pool) : Prop := ∃ i, p.poolBitmap.FirstClear i ∧ p.frame i ≠ 0

/-- What a call that returns `a` in the state `t` keeps. -/
def LockedCall.Keeps (c : LockedCall) (s : MemState) (a : Nat) (t : MemState) : Prop :=
  Balanced s t ∧ match c with
    | getAPage pf _ => a = 0 → SameRange pf s t
    | _ => True

/-- What the call needs for that: a lock that can be taken and given back, if the call takes it; for
`get_a_page` also a frame, and for the address 0, which is `NULL`, a page that is taken already. -/
def LockedCall.Fine (s : MemState) : LockedCall → Prop
  | getUserPages _ => (s.lock .user).Fine s.runningThread
  | getAPage pf vaddr => (s.pool pf).Gives ∧ (s.lock pf).Fine s.runningThread ∧
    (vaddr = 0 → s.bitIdx pf vaddr < 8 * (s.vaddr pf).vaddrBitmap.btmpBytesLen →
      (s.vaddr pf).vaddrBitmap.bit (s.bitIdx pf vaddr) = true)
  | sysMalloc size => 0 < size ∧ size < (s.pool s.ownPool).poolSize →
    (s.lock s.ownPool).Fine s.runningThread
  | sysFree ptr => ptr ≠ 0 → (s.lock s.ownPool).Fine s.runningThread

section Calls

variable {s t : MemState} {a : Nat}

theorem getUserPages_balanced_iff (hnd : s.ndebug = true) {pgCnt : Nat}
    (h : Mem.getUserPages pgCnt s = .ok (a, t)) :
    Balanced s t ↔ (s.lock .user).Fine s.runningThread := by
  refine Unlocks.balanced_iff ?_ hnd h
  refine Unlocks.after (offPages_locks.mallocPage _ _) fun vaddr => Unlocks.ite ?_ ?_
  · exact Unlocks.after (offPages_locks.memset _ _ _) fun _ => unlocks_release _ _
  · exact unlocks_release _ _

theorem sysMalloc_balanced_iff (hnd : s.ndebug = true) {size : Nat}
    (h : Mem.sysMalloc size s = .ok (a, t)) :
    Balanced s t ↔ (0 < size ∧ size < (s.pool s.ownPool).poolSize →
      (s.lock s.ownPool).Fine s.runningThread) := by
  unfold Mem.sysMalloc at h
  rw [Mem.read_bind] at h
  dsimp only at h
  rw [s.ite_pgdir] at h
  split at h
  · next hsize =>
    obtain rfl : s = t := congrArg Prod.snd (Except.ok.inj h)
    exact iff_of_true (balanced_of_lock_eq rfl) fun hin => absurd hin hsize
  · next hsize =>
    rw [imp_iff_right (not_not.mp hsize)]
    refine Unlocks.balanced_iff ?_ hnd h
    refine Unlocks.ite ?_ ?_
    · exact Unlocks.after (offPages_locks.sysMallocLarge _ _) fun _ => unlocks_release _ _
    · exact Unlocks.after (offPages_locks.sysMallocSmall _ _ _) fun _ => unlocks_release _ _

theorem sysFree_balanced_iff (hnd : s.ndebug = true) {ptr : Nat} {u : Unit}
    (h : Mem.sysFree ptr s = .ok (u, t)) :
    Balanced s t ↔ (ptr ≠ 0 → (s.lock s.ownPool).Fine s.runningThread) := by
  unfold Mem.sysFree at h
  rw [bind_of_ok (assert_ndebug hnd _ _)] at h
  split at h
  · next hptr =>
    rw [imp_iff_right hptr, Mem.read_bind] at *
    dsimp only at h
    rw [s.ite_pgdir] at h
    have hbody : Unlocks s.ownPool (do
        let large ← Mem.loadWord (Mem.field (Mem.block2arena ptr) 8)
        Mem.assert (large = 0 ∨ large = 1)
          ⟨"./kernel/memory.c", 490, "sys_free", "a->large == 0 || a->large == 1"⟩
        let desc ← Mem.loadWord (Mem.block2arena ptr)
        if desc = 0 ∧ large = 1 then
          let cnt ← Mem.loadWord (Mem.field (Mem.block2arena ptr) 4)
          Mem.mfreePage s.ownPool (Mem.block2arena ptr) cnt
        else
          Mem.sysFreeSmall s.ownPool (Mem.block2arena ptr) ptr
        Mem.lockRelease s.ownPool) := by
      refine Unlocks.after (Mem.keeps_loadWord _) fun large => ?_
      refine Unlocks.after (Mem.keeps_assert _ _) fun _ => ?_
      refine Unlocks.after (Mem.keeps_loadWord _) fun desc => Unlocks.ite ?_ ?_
      · refine Unlocks.after (Mem.keeps_loadWord _) fun cnt => ?_
        exact Unlocks.after (offPages_locks.mfreePage _ _ _) fun _ => unlocks_lockRelease _
      · exact Unlocks.after (offPages_locks.sysFreeSmall _ _ _) fun _ => unlocks_lockRelease _
    split at h
    · rw [bind_of_ok (assert_ndebug hnd _ _)] at h
      exact hbody.balanced_iff hnd h
    · exact hbody.balanced_iff hnd h
  · next hptr =>
    obtain rfl : s = t := congrArg Prod.snd (Except.ok.inj h)
    exact iff_of_true (balanced_of_lock_eq rfl) fun hne => absurd hne hptr

theorem palloc_ndebug (p : Pool) : ∃ a p', palloc true p = .ok (a, p') ∧ (a = 0 ↔ ¬ p.Gives) := by
  by_cases hany : p.poolBitmap.AnyClear
  · obtain ⟨i, hi⟩ := hany.firstClear
    refine ⟨p.frame i, p.put i true, palloc_first true hi.lt hi.set hi.clear, ?_⟩
    refine ⟨fun hzero hgives => ?_, fun hnone => ?_⟩
    · obtain ⟨j, hj, hne⟩ := hgives
      rw [hj.unique hi] at hne
      exact hne hzero
    · by_contra hne
      exact hnone ⟨i, hi, hne⟩
  · refine ⟨0, p, ?_, iff_of_true rfl fun hgives => ?_⟩
    · unfold palloc pallocScan
      rw [bitmapScan_full (Bitmap.not_anyClear.mp hany)]
      rfl
    · obtain ⟨i, hi, -⟩ := hgives
      exact hany ⟨i, hi.lt, hi.clear⟩

theorem offRanges_pool : OffRanges MemState.pool where
  phys _ _ := rfl
  range _ pf _ := by cases pf <;> rfl

theorem Mem.getAPageBit_ndebug (hnd : s.ndebug = true) {pf : PoolFlags}
    {vaddr line : Nat} {u : Unit}
    (h : Mem.getAPageBit pf vaddr line s = .ok (u, t)) {k : Nat}
    (hk : k < 8 * (s.vaddr pf).vaddrBitmap.btmpBytesLen) :
    (t.vaddr pf).vaddrBitmap.bit k =
      if k = s.bitIdx pf vaddr then true else (s.vaddr pf).vaddrBitmap.bit k := by
  unfold Mem.getAPageBit at h
  rw [Mem.read_bind] at h
  dsimp only at h
  rw [bind_of_ok (assert_ndebug hnd _ _)] at h
  split at h
  · rw [bitmapSet_one, bind_of_ok Mem.ofPanic_ok] at h
    obtain rfl := congrArg Prod.snd (Except.ok.inj h)
    rw [vaddr_setVaddrBitmap, Bitmap.bit_put]
    rfl
  · next hfar =>
    have hvaddr := ((Mem.keeps_loadByte _).bind fun _ =>
      Mem.offFrames_vaddr.storeByte _ _).ok h
    have hne : k ≠ s.bitIdx pf vaddr := by
      unfold MemState.bitIdx
      omega
    rw [hvaddr, if_neg hne]

/-- `get_a_page` after the bit has been set: only with a frame is the lock given back. -/
theorem Mem.getAPageMap_ndebug (hnd : s.ndebug = true) {pf : PoolFlags} {vaddr : Nat}
    (h : Mem.getAPageMap pf vaddr s = .ok (a, t)) :
    t.vaddr = s.vaddr ∧ ((a = 0 ∧ ¬ (s.pool pf).Gives ∧ t.lock = s.lock) ∨
      (a = vaddr ∧ (s.pool pf).Gives ∧
        t.lock = Function.update s.lock pf (s.lock pf).released)) := by
  obtain ⟨p, s₁, halloc, hrest⟩ := exists_of_bind_ok h
  obtain ⟨p', pool', hpalloc, hzero⟩ := palloc_ndebug (s.pool pf)
  have halloc' : Mem.palloc pf s = .ok (p', s.setPool (Function.update s.pool pf pool')) := by
    unfold Mem.palloc
    rw [Mem.read_bind, hnd, hpalloc]
    rfl
  obtain ⟨rfl, rfl⟩ := Prod.mk.inj (Except.ok.inj (halloc'.symm.trans halloc))
  split at hrest
  · next hnone =>
    obtain ⟨rfl, rfl⟩ := Prod.mk.inj (Except.ok.inj hrest)
    exact ⟨rfl, .inl ⟨rfl, hzero.mp hnone, rfl⟩⟩
  · next hsome =>
    obtain ⟨_, s₂, hadd, hrest⟩ := exists_of_bind_ok hrest
    have hlocks := (offPages_locks.pageTableAdd vaddr p').ok hadd
    have hvaddr := (Mem.offFrames_vaddr.pageTableAdd vaddr p').ok hadd
    have hlock : s₂.lock = s.lock := congrArg (·.1) hlocks
    rw [bind_of_ok (Mem.lockRelease_ndebug ((congrArg (·.2.2) hlocks).trans hnd))] at hrest
    obtain ⟨rfl, rfl⟩ := Prod.mk.inj (Except.ok.inj hrest)
    refine ⟨hvaddr, .inr ⟨rfl, not_not.mp (hzero.not.mp hsome), ?_⟩⟩
    show Function.update s₂.lock pf (s₂.lock pf).released = _
    rw [hlock]

theorem Mem.getAPage_ndebug (hnd : s.ndebug = true) {pf : PoolFlags} {vaddr : Nat}
    (h : Mem.getAPage pf vaddr s = .ok (a, t)) :
    (∀ k < 8 * (s.vaddr pf).vaddrBitmap.btmpBytesLen, (t.vaddr pf).vaddrBitmap.bit k =
      if k = s.bitIdx pf vaddr then true else (s.vaddr pf).vaddrBitmap.bit k) ∧
    ((a = 0 ∧ ¬ (s.pool pf).Gives ∧
        t.lock = Function.update s.lock pf ((s.lock pf).acquired s.runningThread)) ∨
      (a = vaddr ∧ (s.pool pf).Gives ∧
        t.lock = Function.update s.lock pf ((s.lock pf).acquired s.runningThread).released)) := by
  obtain ⟨u, s₁, hacquire, h⟩ := exists_of_bind_ok h
  obtain rfl := Mem.lockAcquire_ndebug hnd hacquire
  rw [Mem.read_bind] at h
  set s₁ := s.setLock pf ((s.lock pf).acquired s.runningThread) with hs₁
  -- both branches set a bit in the range of `pf`
  obtain ⟨line, s₂, hbit, hmap⟩ : ∃ line s₂, Mem.getAPageBit pf vaddr line s₁ = .ok ((), s₂) ∧
      Mem.getAPageMap pf vaddr s₂ = .ok (a, t) := by
    dsimp only at h
    split at h
    · next hpf =>
      obtain ⟨_, s₂, hbit, hmap⟩ := exists_of_bind_ok h
      exact ⟨189, s₂, hpf.2 ▸ hbit, hmap⟩
    · split at h
      · next hpf =>
        obtain ⟨_, s₂, hbit, hmap⟩ := exists_of_bind_ok h
        exact ⟨194, s₂, hpf.2 ▸ hbit, hmap⟩
      · exact nomatch h
  have hlocks := (offPages_locks.getAPageBit pf vaddr line).ok hbit
  have hpool : s₂.pool = s₁.pool := (offRanges_pool.getAPageBit pf vaddr line).ok hbit
  have hlock : s₂.lock = Function.update s.lock pf ((s.lock pf).acquired s.runningThread) :=
    congrArg (·.1) hlocks
  obtain ⟨hvaddr, hend⟩ := Mem.getAPageMap_ndebug ((congrArg (·.2.2) hlocks).trans hnd) hmap
  rw [hpool, hlock, Function.update_self, Function.update_idem] at hend
  refine ⟨fun k hk => ?_, hend⟩
  rw [hvaddr]
  exact Mem.getAPageBit_ndebug (s := s₁) hnd hbit hk

theorem getAPage_keeps_iff (hnd : s.ndebug = true) {pf : PoolFlags} {vaddr : Nat}
    (h : Mem.getAPage pf vaddr s = .ok (a, t)) :
    Balanced s t ∧ (a = 0 → SameRange pf s t) ↔ (s.pool pf).Gives ∧
      (s.lock pf).Fine s.runningThread ∧ (vaddr = 0 →
        s.bitIdx pf vaddr < 8 * (s.vaddr pf).vaddrBitmap.btmpBytesLen →
          (s.vaddr pf).vaddrBitmap.bit (s.bitIdx pf vaddr) = true) := by
  obtain ⟨hbits, ⟨-, hnone, hlock⟩ | ⟨rfl, hgives, hlock⟩⟩ := Mem.getAPage_ndebug hnd h
  · refine iff_of_false (fun hkept => ?_) fun hfine => hnone hfine.1
    exact (s.lock pf).not_agrees_acquired _ ((balanced_update hlock).mp hkept.1)
  rw [balanced_update hlock, Lock.agrees_released_iff, and_iff_right hgives]
  refine and_congr_right fun _ => imp_congr_right fun _ => ⟨fun hsame hk => ?_, fun hset k hk => ?_⟩
  · rw [← hsame _ hk, hbits _ hk, if_pos rfl]
  · rw [hbits k hk]
    split
    · next heq =>
      rw [heq] at hk ⊢
      exact (hset hk).symm
    · rfl

end Calls

/-- A call that returns keeps the locks, and `get_a_page` the bitmap when it returns `NULL`, exactly
when the lock is in order and, for `get_a_page`, there is a frame. -/
theorem pool_locks_balanced_iff (s t : MemState) (hnd : s.ndebug = true) (c : LockedCall) (a : Nat)
    (hret : c.run s = .ok (a, t)) : c.Keeps s a t ↔ c.Fine s := by
  cases c with
  | getUserPages pgCnt =>
    exact (and_iff_left trivial).trans (getUserPages_balanced_iff hnd hret)
  | getAPage pf vaddr => exact getAPage_keeps_iff hnd hret
  | sysMalloc size => exact (and_iff_left trivial).trans (sysMalloc_balanced_iff hnd hret)
  | sysFree ptr =>
    obtain ⟨u, t', hfree, hpure⟩ := exists_of_bind_ok hret
    obtain ⟨-, rfl⟩ := Prod.mk.inj (Except.ok.inj hpure)
    exact (and_iff_left trivial).trans (sysFree_balanced_iff hnd hfree)

/-- A request for more pages than the range has returns `NULL` and gives the lock back. -/
theorem pool_locks_balanced_refused : ∃ t,
    (LockedCall.getUserPages 100).run (fullMemory 0xff) = .ok (0, t) ∧
      (LockedCall.getUserPages 100).Keeps (fullMemory 0xff) 0 t := by
  obtain ⟨t, ht⟩ : ∃ t, (LockedCall.getUserPages 100).run (fullMemory 0xff) = .ok (0, t) := ⟨_, rfl⟩
  exact ⟨t, ht, (pool_locks_balanced_iff _ t rfl _ 0 ht).mpr (.inl ⟨rfl, rfl⟩)⟩

/-- Without a frame, `get_a_page` returns `NULL` with the lock held and the page taken. -/
theorem get_a_page_keeps_lock : ∃ t,
    Mem.getAPage .user 0x8049000 (fullMemory 0xff) = .ok (0, t) ∧
    ((fullMemory 0xff).lock .user).holder = none ∧ (t.lock .user).holder = some 0xc009e000 ∧
    ((fullMemory 0xff).lock .user).holderRepeatNr = 0 ∧ (t.lock .user).holderRepeatNr = 1 ∧
    ((fullMemory 0xff).vaddr .user).vaddrBitmap.bit 1 = false ∧
    (t.vaddr .user).vaddrBitmap.bit 1 = true :=
  ⟨_, rfl, rfl, rfl, rfl, rfl, rfl, rfl⟩

end OriginOS
