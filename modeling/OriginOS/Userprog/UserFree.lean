import OriginOS.Kernel.HeapSafety

/-! What a process can make the kernel do with the system call `SYS_FREE`. The headers of the arenas
and the links of the free lists are in pages that the process can write, and `sys_free` follows
them. -/

namespace OriginOS

open Lib Arenas

/-! ### The memory of a process -/

/-- A byte of the user's half of the running process, in a frame of the user pool. -/
def UserByte (s : MemState) (b : Nat) : Prop :=
  (s.pool .user).phyAddrStart ≤ b ∧ ∃ a < 0xc0000000, walk s.phys s.cr3 a = some b

/-- A byte that `sys_free` may change for the running process: in its user memory, in its
descriptors, or in the page tables of its half. -/
inductive OwnByte (s : MemState) (b : Nat) : Prop
  | user : UserByte s b → OwnByte s b
  | descs (a : Nat) : s.descs .user ≤ a → a < s.descs .user + 168 → walk s.phys s.cr3 a = some b →
    OwnByte s b
  | table (i : Nat) : i < 768 → Present (pde s.phys s.cr3 i) → frameOf (pde s.phys s.cr3 i) ≤ b →
    b < frameOf (pde s.phys s.cr3 i) + 4096 → OwnByte s b

/-- Between `s` and `t`, only what `sys_free` may change for the running process has changed: its
own bytes, the bitmap and the lock of the user pool, and the bitmap of its range. -/
structure FreeContained (s t : MemState) : Prop where
  phys : ∀ b, ¬ OwnByte s b → t.phys b = s.phys b
  pool : ∀ i, (t.pool .kernel).poolBitmap.bit i = (s.pool .kernel).poolBitmap.bit i
  lock : t.lock .kernel = s.lock .kernel
  kernelVaddr : t.kernelVaddr = s.kernelVaddr
  tasks : ∀ u, u ≠ s.runningThread → t.task u = s.task u
  pgdir : (t.task s.runningThread).pgdir = (s.task s.runningThread).pgdir
  uBlockDescs : (t.task s.runningThread).uBlockDescs = (s.task s.runningThread).uBlockDescs
  cr3 : t.cr3 = s.cr3

structure OthersAgree (s t t' : MemState) : Prop where
  phys : ∀ b, ¬ OwnByte s b → t.phys b = t'.phys b
  pool : ∀ i, (t.pool .kernel).poolBitmap.bit i = (t'.pool .kernel).poolBitmap.bit i
  lock : t.lock .kernel = t'.lock .kernel
  kernelVaddr : t.kernelVaddr = t'.kernelVaddr
  tasks : ∀ u, u ≠ s.runningThread → t.task u = t'.task u

/-- The same state with other contents of the user memory. -/
def UserVariant (s s' : MemState) : Prop :=
  ∃ mem, s' = s.setPhys mem ∧ ∀ b, ¬ UserByte s b → mem b = s.phys b

/-- The user memory holds the headers and links that the kernel wrote for the live allocations of
the process, and `ptr` is one of them. -/
def HeapIntact (s : MemState) (ptr : Nat) : Prop :=
  ∃ g₀ s₀ g A live m, Heap .user g₀ s₀ g s A live m ∧ A.Occupied live ∧ s.lock .user = lockInit ∧
    ptr ∈ ptrs live

/-- A process runs that has a page of user memory, and the user pool is not locked. -/
structure ProcessReady (s : MemState) : Prop where
  frames : ∃ g, FrameInv g s ∧ DescsPlaced g (s.descs .user)
  process : (s.task s.runningThread).pgdir ≠ 0
  lock : s.lock .user = lockInit
  page : ∃ vp f, vp < 0xc0000 ∧ target s.phys s.cr3 vp = some f ∧ (s.pool .user).phyAddrStart ≤ f

section Bytes

variable {g : Frames} {s s' : MemState} {b : Nat}

theorem FrameInv.userByte (h : FrameInv g s) (hproc : (s.task s.runningThread).pgdir ≠ 0)
    (hb : UserByte s b) :
    ∃ vp f, g.own f = some (.page (.user s.runningThread) vp) ∧ f ≤ b ∧ b < f + 4096 := by
  obtain ⟨hstart, a, ha, hwalk⟩ := hb
  obtain ⟨f, htarget, rfl⟩ := walk_eq_some.mp hwalk
  have hsp : (Space.user s.runningThread).Has s (a / 4096) := ⟨hproc, by omega⟩
  have hmod := target_mod htarget
  rw [h.laidOut.start] at hstart
  rw [h.cr3] at htarget
  have hown := (h.page _ _ f hsp htarget).resolve_left
    (by simp only [PoolFlags.start] at hstart; omega)
  exact ⟨_, f, hown, by omega, by omega⟩

theorem FrameInv.not_isDir_user (h : FrameInv g s) {f t vp : Nat}
    (hown : g.own f = some (.page (.user t) vp)) : ¬ g.IsDir f :=
  fun hd => nomatch (h.isDir_of_page hown hd).1

/-- Other contents of the user memory, in the same frames. -/
def Varied (g : Frames) (s : MemState) (mem : Nat → UInt8) : Prop :=
  ∀ b, (∀ vp f, g.own f = some (.page (.user s.runningThread) vp) → b < f ∨ f + 4096 ≤ b) →
    mem b = s.phys b

theorem UserVariant.varied (h : FrameInv g s) (hproc : (s.task s.runningThread).pgdir ≠ 0)
    {mem : Nat → UInt8} (hmem : ∀ b, ¬ UserByte s b → mem b = s.phys b) : Varied g s mem := by
  refine fun b hb => hmem b fun hbyte => ?_
  obtain ⟨vp, f, hown, hlow, hhigh⟩ := h.userByte hproc hbyte
  have hout := hb vp f hown
  omega

theorem Varied.pde_eq {mem : Nat → UInt8} (hv : Varied g s mem) (h : FrameInv g s) {d i : Nat}
    (hd : g.IsDir d) (hi : i < 1024) : pde mem d i = pde s.phys d i := by
  refine load32_congr fun c hc hc' => hv c fun vp f hown => ?_
  have hne : f ≠ d := fun heq => h.not_isDir_user hown (heq ▸ hd)
  have hmod := (h.dir_bounds hd).1
  have hmod' := (h.own_bounds (f := f) (by rw [hown]; exact Option.some_ne_none _)).2.2
  omega

theorem Varied.target_eq {mem : Nat → UInt8} (hv : Varied g s mem) (h : FrameInv g s) {sp : Space}
    {vp : Nat} (hsp : sp.Has s vp) : target mem (sp.dir g) vp = target s.phys (sp.dir g) vp := by
  have hlt := FrameInv.has_div_lt hsp
  refine target_congr (hv.pde_eq h (FrameInv.space_isDir g sp) (by omega)) fun e he => ?_
  obtain ⟨c, hc, rfl, hrole⟩ := h.entry_cases hsp he
  refine load32_congr fun b hb hb' => hv b fun vp' f hown => ?_
  have hbounds := h.own_bounds (f := f) (by rw [hown]; exact Option.some_ne_none _)
  have hne : f ≠ c := by
    rintro rfl
    rcases hrole with ⟨rfl, hk⟩ | ⟨t, rfl, ht⟩
    · obtain ⟨hge, hlt'⟩ := hsp
      unfold kernelTable at hk
      omega
    · exact nomatch ht.symm.trans hown
  omega

theorem Varied.target_kernel {mem : Nat → UInt8} (hv : Varied g s mem) (h : FrameInv g s) {vp : Nat}
    (hsp : Space.kernel.Has s vp) : target mem s.cr3 vp = target s.phys s.cr3 vp := by
  have hlt := FrameInv.has_div_lt hsp
  refine target_congr (hv.pde_eq h h.cr3_isDir (by omega)) fun e he => ?_
  obtain rfl := Option.some.inj (he.symm.trans (h.entry_kernel h.cr3_isDir hsp))
  refine load32_congr fun b hb hb' => hv b fun vp' f hown => ?_
  have hbounds := h.own_bounds (f := f) (by rw [hown]; exact Option.some_ne_none _)
  obtain ⟨hge, hlt'⟩ := hsp
  unfold kernelTable at hb hb'
  omega

theorem KernelFrame.has {vp f : Nat} (hf : KernelFrame g vp f) (h : FrameInv g s) :
    Space.kernel.Has s vp := by
  rcases hf with ⟨k, hk, rfl, -⟩ | ⟨hown, -⟩
  · exact Space.has_low s hk
  · exact (h.mapped f _ _ hown).1

theorem Varied.ownByte {mem : Nat → UInt8} (hv : Varied g s mem) (h : FrameInv g s)
    (hproc : (s.task s.runningThread).pgdir ≠ 0) (hplaced : DescsPlaced g (s.descs .user))
    (hb : OwnByte (s.setPhys mem) b) : OwnByte s b := by
  cases hb with
  | user hbyte =>
    obtain ⟨hstart, a, ha, hwalk⟩ := hbyte
    refine .user ⟨hstart, a, ha, ?_⟩
    have hsp : (Space.user s.runningThread).Has s (a / 4096) := ⟨hproc, by omega⟩
    have htarget := hv.target_eq h hsp
    rw [show (Space.user s.runningThread).dir g = s.cr3 from h.cr3.symm] at htarget
    rw [← hwalk]
    exact (congrArg (Option.map _) htarget).symm
  | descs a hlow hhigh hwalk =>
    obtain ⟨f, hf⟩ := hplaced.frames a hlow hhigh
    refine .descs a hlow hhigh ?_
    rw [← hwalk]
    exact (congrArg (Option.map _) (hv.target_kernel h (hf.has h))).symm
  | table i hi hpresent hlow hhigh =>
    have hpde : pde (s.setPhys mem).phys (s.setPhys mem).cr3 i = pde s.phys s.cr3 i :=
      hv.pde_eq h h.cr3_isDir (by omega)
    rw [hpde] at hpresent hlow hhigh
    exact .table i hi hpresent hlow hhigh

end Bytes

/-! ### An intact heap -/

section Intact

variable {g g' g₀ : Frames} {s s' s₀ t t' : MemState} {A A' : Arenas} {live : List Alloc}
  {m m' : Nat → UInt8} {ptr : Nat}

theorem Frees.contained (hf : Frees .user g₀ s₀ g s A live m ptr t g' A' m')
    (h : Heap .user g₀ s₀ g s A live m) : FreeContained s t := by
  have hinv := h.flat.inv
  have hproc : (s.task s.runningThread).pgdir ≠ 0 := fun hzero => nomatch h.pages.uses.mp hzero
  have hconfined := hf.confined
  refine ⟨fun b hb => ?_, hconfined.pool .kernel nofun, congrFun hf.lock _,
    hconfined.kernelVaddr rfl,
    hconfined.tasks, hf.same.pgdir _, hf.same.uBlockDescs _, hconfined.cr3⟩
  by_cases hoff : OffData g s b
  · refine hconfined.phys b hoff fun htable => hb ?_
    -- the entry of a page of the process
    obtain ⟨vp, e, ⟨-, hvp⟩, he, hlow, hhigh⟩ := htable
    rw [show (s.space .user).dir g = s.cr3 from hinv.cr3.symm] at he
    obtain ⟨hpresent, rfl⟩ := entry_eq_some.mp he
    exact .table (vp / 1024) (by omega) hpresent (by omega) (by omega)
  · -- a byte of a data page that is not the process's own
    obtain ⟨vp, f, hpage, hin⟩ : ∃ vp f, PageFrame g s vp f ∧ ¬ (b < f ∨ f + 4096 ≤ b) := by
      by_contra hnone
      exact hoff fun vp f hf => by_contra fun hin => hnone ⟨vp, f, hf, hin⟩
    obtain ⟨k, rfl⟩ := Nat.exists_eq_add_of_le (show f ≤ b by omega)
    have hk : k < 4096 := by omega
    have hwalk := hpage.walk hinv hk
    have hcovers : ¬ A.Covers vp := by
      intro hvp
      obtain ⟨-, i, hi, hown, hdir⟩ := h.pages.pages vp hvp
      have hown' : PageFrame g s vp (frameAddr .user i) :=
        .inr ⟨s.space .user, space_current s .user, hown, hdir⟩
      obtain rfl : f = frameAddr .user i :=
        Option.some.inj ((hpage.target hinv).symm.trans (hown'.target hinv))
      obtain ⟨-, hlt⟩ := (hinv.mapped _ _ _ hown).1
      refine hb (.user ⟨?_, 4096 * vp + k, by omega, hwalk⟩)
      rw [hinv.laidOut.start]
      unfold frameAddr
      omega
    have hdescs : 4096 * vp + k < s.descs .user ∨ s.descs .user + 168 ≤ 4096 * vp + k := by
      by_contra hin
      exact hb (.descs _ (by omega) (by omega) hwalk)
    rw [hf.heap.flat.bytes vp f (hf.frames vp f hpage hcovers) k hk, h.flat.bytes vp f hpage k hk]
    refine hf.outside _ ?_ hdescs
    rwa [show (4096 * vp + k) / 4096 = vp by omega]

theorem HeapIntact.sysFree_ok (h : HeapIntact s ptr) :
    ∃ t, Mem.sysFree ptr s = .ok ((), t) ∧ FreeContained s t := by
  obtain ⟨g₀, s₀, g, A, live, m, hheap, hocc, hlock, hp⟩ := h
  have hfree := hheap.ensures_sysFree hocc hlock hp (E := fun _ => False)
  cases hok : Mem.sysFree ptr s with
  | error e => exact (hfree.error hok).elim
  | ok r =>
    obtain ⟨⟨⟩, t⟩ := r
    obtain ⟨g', A', m', hfrees⟩ := hfree.ok hok
    exact ⟨t, rfl, hfrees.contained hheap⟩

theorem HeapIntact.othersAgree (h : HeapIntact s ptr) (h' : HeapIntact s' ptr)
    (hvariant : UserVariant s s') (hok : Mem.sysFree ptr s = .ok ((), t))
    (hok' : Mem.sysFree ptr s' = .ok ((), t')) : OthersAgree s t t' := by
  obtain ⟨u, hu, hcontained⟩ := h.sysFree_ok
  obtain ⟨u', hu', hcontained'⟩ := h'.sysFree_ok
  obtain rfl := (Prod.mk.inj (Except.ok.inj (hok.symm.trans hu))).2
  obtain rfl := (Prod.mk.inj (Except.ok.inj (hok'.symm.trans hu'))).2
  obtain ⟨g₀, s₀, g, A, live, m, hheap, -⟩ := h
  obtain ⟨mem, rfl, hmem⟩ := hvariant
  have hinv := hheap.flat.inv
  have hproc : (s.task s.runningThread).pgdir ≠ 0 := fun hzero => nomatch hheap.pages.uses.mp hzero
  have hvaried := UserVariant.varied hinv hproc hmem
  refine ⟨fun b hb => ?_, fun i => (hcontained.pool i).trans (hcontained'.pool i).symm,
    hcontained.lock.trans hcontained'.lock.symm,
    hcontained.kernelVaddr.trans hcontained'.kernelVaddr.symm,
    fun u hu => (hcontained.tasks u hu).trans (hcontained'.tasks u hu).symm⟩
  have hkept := hcontained'.phys b fun hown =>
    hb (hvaried.ownByte hinv hproc hheap.pages.descs hown)
  rw [hcontained.phys b hb, hkept]
  exact (hmem b fun hbyte => hb (.user hbyte)).symm

end Intact

/-! ### A forged arena -/

/-- The page at `a` with the header of a small arena. Its descriptor is in the same page, and the
last element of the free list is said to be the one whose `next` is at `k`. -/
def forgedMem (m : Nat → UInt8) (a k : Nat) : Nat → UInt8 :=
  let m := store32 (store32 (store32 m a (a + 12)) (a + 4) 0) (a + 8) 0
  store32 (store32 m (a + 16) 0) (a + 28) (k - 4)

section Forged

variable {g : Frames} {s : MemState} {m : Nat → UInt8} {a b k vp : Nat}

theorem forgedMem_apply {c : Nat} (hc : c < a ∨ a + 32 ≤ c) : forgedMem m a k c = m c := by
  simp only [forgedMem]
  rw [store32_apply_of_not (by omega), store32_apply_of_not (by omega),
    store32_apply_of_not (by omega),
    store32_apply_of_not (by omega), store32_apply_of_not (by omega)]

theorem load32_forgedMem (ha : a + 12 < 2 ^ 32) (hk : k < 2 ^ 32) :
    load32 (forgedMem m a k) a = a + 12 ∧ load32 (forgedMem m a k) (a + 4) = 0 ∧
      load32 (forgedMem m a k) (a + 8) = 0 ∧ load32 (forgedMem m a k) (a + 16) = 0 ∧
      load32 (forgedMem m a k) (a + 28) = k - 4 := by
  refine ⟨?_, ?_, ?_, ?_, ?_⟩ <;>
    simp (disch := omega) only [forgedMem, load32_store32_self, load32_store32_of_disjoint]

/-- `sys_free` of a block of the forged arena stores the address of the block at `k`. -/
theorem does_sysFreeSmall_forged (hvp : vp < 0xc0000) (hpage : DataPage g s vp)
    (hb : b = 4096 * vp + 32 ∨ b = 4096 * vp + 64) (hnode : DataNode g s (k - 4))
    (hk : 0xc0000004 ≤ k) :
    ∃ m', Does g s (Mem.sysFreeSmall .user (4096 * vp) b) (forgedMem m (4096 * vp) k) () m' ∧
      load32 m' k = b ∧ ∀ c, 0xc0000000 ≤ c → (c < k ∨ k + 4 ≤ c) → m' c = m c := by
  have hbound := hnode.bound
  have hword : ∀ off, off + 4 ≤ 4096 → DataWord g s (4096 * vp + off) := by
    intro off hoff
    refine ⟨?_, by omega⟩
    rwa [show (4096 * vp + off) / 4096 = vp by omega]
  have hnodeAt : ∀ off, off + 8 ≤ 4096 → DataNode g s (4096 * vp + off) := fun off hoff =>
    ⟨hword off (by omega), by rw [Nat.add_assoc]; exact hword (off + 4) (by omega), by omega⟩
  have hnodeB : DataNode g s b := by
    rcases hb with rfl | rfl
    · exact hnodeAt 32 (by omega)
    · exact hnodeAt 64 (by omega)
  obtain ⟨hdesc, hcnt, -, hblocks, hprev⟩ :=
    load32_forgedMem (m := m) (a := 4096 * vp) (k := k) (by omega) (by omega)
  have hforged : ∀ c, 0xc0000000 ≤ c → forgedMem m (4096 * vp) k c = m c :=
    fun c hc => forgedMem_apply (by omega)
  generalize forgedMem m (4096 * vp) k = m₀ at *
  generalize ha : 4096 * vp = a at *
  -- the memory after `list_append`
  have hinsert : insertBefore m₀ (a + 28) b =
      store32 (store32 (store32 (store32 m₀ k b) b (k - 4)) (b + 4) (a + 28)) (a + 28) b := by
    rw [insertBefore_eq hprev (.inr (by omega)), show k - 4 + 4 = k by omega]
  obtain ⟨m₁, hm₁⟩ : ∃ m₁, m₁ = insertBefore m₀ (a + 28) b := ⟨_, rfl⟩
  have hkept : ∀ off, off + 4 ≤ 28 → load32 m₁ (a + off) = load32 m₀ (a + off) := by
    intro off hoff
    rw [hm₁, hinsert]
    simp (disch := omega) only [load32_store32_of_disjoint]
  have htarget : load32 m₁ k = b := by
    rw [hm₁, hinsert]
    simp (disch := omega) only [load32_store32_self, load32_store32_of_disjoint]
  refine ⟨store32 m₁ (a + 4) 1, ?_, by rw [load32_store32_of_disjoint (by omega), htarget],
    fun c hc hck => ?_⟩
  rotate_left
  · rw [store32_apply_of_not (by omega), hm₁, hinsert]
    simp (disch := omega) only [store32_apply_of_not]
    exact hforged c hc
  unfold Mem.sysFreeSmall
  refine (does_loadWord (hword 0 (by omega))).bind ?_
  rw [Nat.add_zero, hdesc, Mem.field_eq (by omega), Mem.field_eq (by omega)]
  unfold Mem.listAppend
  rw [Mem.field_eq (by omega), show a + 12 + 8 + 8 = a + 28 by omega]
  refine (does_listInsertBefore (hnodeAt 28 (by omega)) hnodeB (by rw [hprev]; exact hnode)).bind ?_
  rw [← hm₁]
  refine (does_loadWord (hword 4 (by omega))).bind ?_
  rw [hkept 4 (by omega), hcnt]
  refine (does_storeWord (hword 4 (by omega)) _).bind ?_
  refine (does_loadWord (hword 0 (by omega))).bind ?_
  have hdesc' : load32 (store32 m₁ (a + 4) ((0 + 1) % 2 ^ 32)) (a + 0) = a + 12 := by
    rw [load32_store32_of_disjoint (by omega), hkept 0 (by omega)]
    exact hdesc
  rw [hdesc', Mem.field_eq (by omega), Nat.add_assoc]
  refine (does_loadWord (hword 16 (by omega))).bind ?_
  rw [load32_store32_of_disjoint (by omega), hkept 16 (by omega), hblocks, if_neg (by decide)]
  exact Does.pure ()

theorem sysFree_forged (hflat : Flat g s (forgedMem m (4096 * vp) k)) (huses : s.Uses .user)
    (hlock : s.lock .user = lockInit) (hvp : vp < 0xc0000) (hpage : DataPage g s vp)
    (hb : b = 4096 * vp + 32 ∨ b = 4096 * vp + 64) (hnode : DataNode g s (k - 4))
    (hk : 0xc0000004 ≤ k) :
    ∃ t m', Mem.sysFree b s = .ok ((), t) ∧ Flat g t m' ∧ t.runningThread = s.runningThread ∧
      load32 m' k = b ∧ ∀ c, 0xc0000000 ≤ c → (c < k ∨ k + 4 ≤ c) → m' c = m c := by
  have hbound := hnode.bound
  have hproc : (s.task s.runningThread).pgdir ≠ 0 := fun hzero => nomatch huses.mp hzero
  have harena : Mem.block2arena b = 4096 * vp := by
    rw [block2arena_eq (by omega)]
    omega
  obtain ⟨hdesc, -, hlarge, -⟩ :=
    load32_forgedMem (m := m) (a := 4096 * vp) (k := k) (by omega) (by omega)
  set u := s.setLock .user ⟨0, some s.runningThread, 1⟩ with hu
  have hflatU : Flat g u (forgedMem m (4096 * vp) k) :=
    hflat.congr (hflat.inv.setLock _ _) rfl rfl
  have hword : ∀ off, off + 4 ≤ 4096 → DataWord g u (4096 * vp + off) := by
    intro off hoff
    refine ⟨?_, by omega⟩
    rw [show (4096 * vp + off) / 4096 = vp by omega]
    exact hpage
  have hnodeU : DataNode g u (k - 4) := ⟨hnode.prev, hnode.next, hnode.bound⟩
  obtain ⟨m', hsmall, htarget, hothers⟩ :=
    does_sysFreeSmall_forged (m := m) hvp (show DataPage g u vp from hpage) hb hnodeU hk
  -- what happens while the lock is held
  have hbody : Does g u (do
      let large ← Mem.loadWord (4096 * vp + 8)
      Mem.assert (large = 0 ∨ large = 1)
        ⟨"./kernel/memory.c", 490, "sys_free", "a->large == 0 || a->large == 1"⟩
      let desc ← Mem.loadWord (4096 * vp)
      if desc = 0 ∧ large = 1 then
        let cnt ← Mem.loadWord (4096 * vp + 4)
        Mem.mfreePage .user (4096 * vp) cnt
      else
        Mem.sysFreeSmall .user (4096 * vp) b) (forgedMem m (4096 * vp) k) () m' := by
    refine (does_loadWord (hword 8 (by omega))).bind ?_
    rw [hlarge]
    refine (Does.assert _ rfl).bind ((does_loadWord (hword 0 (by omega))).bind ?_)
    rw [if_neg fun hc => absurd hc.2 (by decide)]
    exact hsmall
  obtain ⟨mem, hok, hflat'⟩ := hbody.ok hflatU
  have hheld : (u.setPhys mem).lock .user = ⟨0, some (u.setPhys mem).runningThread, 1⟩ := by
    show Function.update s.lock .user ⟨0, some s.runningThread, 1⟩ .user = _
    exact Function.update_self ..
  refine ⟨(u.setPhys mem).setLock .user lockInit, m', ?_,
    hflat'.congr (hflat'.inv.setLock _ _) rfl rfl, rfl, htarget, hothers⟩
  have hb0 : b ≠ 0 := by omega
  unfold Mem.sysFree
  rw [bind_of_ok (Mem.assert_ok _ (decide_eq_true hb0)), if_pos hb0, Mem.read_bind]
  simp only [huses.flag]
  rw [if_neg hproc, bind_of_ok (Mem.lockAcquire_ok hlock), harena, Mem.field_eq (by omega),
    Mem.field_eq (by omega)]
  refine Eq.trans ?_ ((bind_of_ok (f := fun _ => Mem.lockRelease .user) hok).trans
    (Mem.lockRelease_ok hheld))
  simp only [bind_assoc, apply_ite (· >>= fun _ => Mem.lockRelease .user)]
  rfl

/-- Each byte of kernel memory in the low 1 MiB is at one place in the address space of a process,
and no process owns it unless it is in its descriptors. -/
theorem FrameInv.not_ownByte_low (h : FrameInv g s) (hproc : (s.task s.runningThread).pgdir ≠ 0)
    (hplaced : DescsPlaced g (s.descs .user)) {p : Nat} (hp : p < 0x100000)
    (hdescs : 0xc0000000 + p < s.descs .user ∨ s.descs .user + 168 ≤ 0xc0000000 + p) :
    ¬ OwnByte s p := by
  intro hown
  cases hown with
  | user hbyte =>
    have hstart := hbyte.1
    rw [h.laidOut.start] at hstart
    simp only [PoolFlags.start] at hstart
    omega
  | descs a hlow hhigh hwalk =>
    obtain ⟨f, hf⟩ := hplaced.frames a hlow hhigh
    have hwalk' := (hf.pageFrame s).walk h (Nat.mod_lt a (show 0 < 4096 by omega))
    rw [page_split, hwalk] at hwalk'
    obtain rfl : p = f + a % 4096 := Option.some.inj hwalk'
    rcases hf with ⟨j, hj, hvp, rfl⟩ | ⟨hown, -⟩
    · omega
    · have hb := h.own_bounds (f := f) (by rw [hown]; exact Option.some_ne_none _)
      omega
  | table i hi hpresent hlow hhigh =>
    rw [h.cr3] at hpresent hlow
    have hown := h.table _ hproc i hi hpresent
    have hb := h.own_bounds (by rw [hown]; exact Option.some_ne_none _)
    omega

theorem ProcessReady.pageFrame (h : ProcessReady s) (hinv : FrameInv g s) {f : Nat}
    (hvp : vp < 0xc0000) (htarget : target s.phys s.cr3 vp = some f)
    (hstart : (s.pool .user).phyAddrStart ≤ f) :
    g.own f = some (.page (.user s.runningThread) vp) ∧ PageFrame g s vp f := by
  have hsp : (Space.user s.runningThread).Has s vp := ⟨h.process, by omega⟩
  rw [hinv.laidOut.start] at hstart
  rw [hinv.cr3] at htarget
  have hown := (hinv.page _ _ f hsp htarget).resolve_left
    (by simp only [PoolFlags.start] at hstart; omega)
  exact ⟨hown, .inr ⟨.user s.runningThread, rfl, hown, hinv.not_isDir_user hown⟩⟩

/-- The process has written a forged arena into its page, and calls `sys_free`. -/
structure Steered (g : Frames) (s : MemState) (k b : Nat) (s' t : MemState) (m' : Nat → UInt8) :
    Prop where
  variant : UserVariant s s'
  inv : FrameInv g s'
  low : ∀ p < 0x100000, s'.phys p = s.phys p
  freed : Mem.sysFree b s' = .ok ((), t)
  flat : Flat g t m'
  running : t.runningThread = s.runningThread
  word : load32 m' k = b
  others : ∀ c, 0xc0000000 ≤ c → (c < k ∨ k + 4 ≤ c) → m' c = s.bytes c

theorem ProcessReady.steered (h : ProcessReady s) (hinv : FrameInv g s) {f : Nat}
    (hvp : vp < 0xc0000)
    (hpage : PageFrame g s vp f) (hstart : (s.pool .user).phyAddrStart ≤ f)
    (hb : b = 4096 * vp + 32 ∨ b = 4096 * vp + 64) (hlow : 0xc0000004 ≤ k)
    (hhigh : k + 4 ≤ 0xc0001000)
    (hword : k % 4 = 0) : ∃ s' t m', Steered g s k b s' t m' := by
  have hframe : PageFrame g s 0xc0000 0 := .inl ⟨0, by omega, rfl, rfl⟩
  have hnode : DataNode g s (k - 4) := by
    refine ⟨⟨⟨0, ?_⟩, by omega⟩, ⟨⟨0, ?_⟩, by omega⟩, by omega⟩
    · rwa [show (k - 4) / 4096 = 0xc0000 by omega]
    · rwa [show (k - 4 + 4) / 4096 = 0xc0000 by omega]
  -- the process writes the page
  obtain ⟨mem, hmem⟩ : ∃ mem : Nat → UInt8, mem = fun c => if f ≤ c ∧ c < f + 4096 then
    forgedMem s.bytes (4096 * vp) k (4096 * vp + (c - f)) else s.phys c := ⟨_, rfl⟩
  have hflat : Flat g (s.setPhys mem) (forgedMem s.bytes (4096 * vp) k) := by
    refine hinv.flat.write hpage (fun c hc => ?_) (fun j hj => ?_) fun c hc =>
      forgedMem_apply (by omega)
    · rw [hmem]
      exact if_neg (by omega)
    · rw [hmem]
      simp only
      rw [if_pos ⟨by omega, by omega⟩, Nat.add_sub_cancel_left]
  have hvariant : UserVariant s (s.setPhys mem) := by
    refine ⟨mem, rfl, fun c hc => ?_⟩
    rw [hmem]
    refine if_neg fun hin => hc ⟨by omega, 4096 * vp + (c - f), by omega, ?_⟩
    rw [hpage.walk hinv (by omega), Nat.add_sub_cancel' hin.1]
  have hkept : ∀ p < 0x100000, mem p = s.phys p := by
    intro p hp
    rw [hinv.laidOut.start] at hstart
    simp only [PoolFlags.start] at hstart
    rw [hmem]
    exact if_neg (by omega)
  have huses : (s.setPhys mem).Uses .user := by
    refine ⟨fun hzero => absurd hzero h.process, ?_⟩
    rintro ⟨⟩
  obtain ⟨t, m', hok, hflat', hrun, htarget, hothers⟩ := sysFree_forged hflat huses h.lock hvp
    ⟨f, hpage⟩ hb ⟨hnode.prev, hnode.next, hnode.bound⟩ hlow
  exact ⟨_, t, m', hvariant, hflat.inv, hkept, hok, hflat', hrun, htarget, hothers⟩

/-- Every process can make `sys_free` store at an address of the kernel, with the right contents of
a page of its own. What else the kernel holds then depends on these contents. -/
theorem ProcessReady.exists_steered (h : ProcessReady s) :
    ∃ ptr s₁ t₁ s₂ t₂, UserVariant s s₁ ∧ UserVariant s s₂ ∧ Mem.sysFree ptr s₁ = .ok ((), t₁) ∧
      Mem.sysFree ptr s₂ = .ok ((), t₂) ∧ ¬ FreeContained s₁ t₁ ∧ ¬ OthersAgree s t₁ t₂ := by
  obtain ⟨g, hinv, hplaced⟩ := h.frames
  obtain ⟨vp, f, hvp, htarget, hstart⟩ := h.page
  obtain ⟨-, hpage⟩ := h.pageFrame hinv hvp htarget hstart
  -- a word of the kernel outside of the descriptors, and a block whose address it does not hold
  obtain ⟨k, hk, hdescs⟩ : ∃ k, (k = 0xc0000100 ∨ k = 0xc0000800) ∧
      (k + 4 ≤ s.descs .user ∨ s.descs .user + 168 ≤ k) := by
    by_cases hclose : 0xc0000104 ≤ s.descs .user ∨ s.descs .user + 168 ≤ 0xc0000100
    · exact ⟨0xc0000100, .inl rfl, hclose⟩
    · exact ⟨0xc0000800, .inr rfl, by omega⟩
  obtain ⟨b, hb, hne⟩ : ∃ b, (b = 4096 * vp + 32 ∨ b = 4096 * vp + 64) ∧ load32 s.bytes k ≠ b := by
    by_cases heq : load32 s.bytes k = 4096 * vp + 32
    · exact ⟨4096 * vp + 64, .inr rfl, by omega⟩
    · exact ⟨4096 * vp + 32, .inl rfl, heq⟩
  have hframe : PageFrame g s 0xc0000 0 := .inl ⟨0, by omega, rfl, rfl⟩
  -- the second run stores elsewhere
  obtain ⟨s₁, t₁, m₁, h₁⟩ := h.steered hinv hvp hpage hstart hb (k := k) (by omega)
    (by omega) (by omega)
  obtain ⟨s₂, t₂, m₂, h₂⟩ := h.steered hinv hvp hpage hstart hb (k := 0xc0000f00)
    (by omega) (by omega)
    (by omega)
  have hbyte : ∀ p < 4096, t₁.phys p = m₁ (0xc0000000 + p) ∧ t₂.phys p = m₂ (0xc0000000 + p) ∧
      s₁.phys p = s.bytes (0xc0000000 + p) := by
    intro p hp
    have hb₁ := h₁.flat.bytes 0xc0000 0 ((PageFrame.congr h₁.running).mpr hframe) p hp
    have hb₂ := h₂.flat.bytes 0xc0000 0 ((PageFrame.congr h₂.running).mpr hframe) p hp
    have hb := hinv.flat.bytes 0xc0000 0 hframe p hp
    rw [Nat.zero_add] at hb₁ hb₂ hb
    exact ⟨hb₁, hb₂, (h₁.low p (by omega)).trans hb⟩
  have hword : (∀ p < 4096, k ≤ 0xc0000000 + p → 0xc0000000 + p < k + 4 →
      m₁ (0xc0000000 + p) = s.bytes (0xc0000000 + p)) → False := by
    refine fun hsame => hne (Eq.trans (load32_congr fun c hc hc' => ?_) h₁.word)
    obtain ⟨p, rfl⟩ := Nat.exists_eq_add_of_le (show 0xc0000000 ≤ c by omega)
    exact (hsame p (by omega) hc hc').symm
  refine ⟨b, s₁, t₁, s₂, t₂, h₁.variant, h₂.variant, h₁.freed, h₂.freed, fun hcontained => ?_,
    fun hagree => ?_⟩
  · obtain ⟨mem, rfl, -⟩ := h₁.variant
    refine hword fun p hp hlow hhigh => ?_
    obtain ⟨ht₁, -, hs⟩ := hbyte p hp
    have hkept := hcontained.phys p (h₁.inv.not_ownByte_low h.process hplaced (by omega) (by
      show _ < s.descs .user ∨ s.descs .user + 168 ≤ _
      omega))
    rwa [ht₁, hs] at hkept
  · refine hword fun p hp hlow hhigh => ?_
    obtain ⟨ht₁, ht₂, -⟩ := hbyte p hp
    have hsame := hagree.phys p (hinv.not_ownByte_low h.process hplaced (by omega) (by omega))
    rw [ht₁, ht₂, h₂.others _ (by omega) (by omega)] at hsame
    exact hsame

/-! ### A process with a stack page -/

/-- The address of the descriptors of all processes set to `d`. -/
def MemState.withDescs (s : MemState) (d : Nat) : MemState :=
  { s with task := fun u => { s.task u with uBlockDescs := d } }

theorem FrameInv.withDescs (h : FrameInv g s) (d : Nat) : FrameInv g (s.withDescs d) :=
  ⟨h.debug, h.laidOut, h.bit, h.pool, h.cr3, h.thread, h.process, h.pgdirInj, h.selfMap,
    h.kernelPde, h.bootFirst, h.bootRest, h.table, h.page, h.mapped, h.low, h.marked, h.kernelRange,
    h.userRange⟩

theorem exists_ownStack : ∃ g s i, FrameInv g s ∧ (s.task s.runningThread).pgdir ≠ 0 ∧
    s.lock .user = lockInit ∧ i < 3840 ∧
    g.own (frameAddr .user i) = some (.page (.user s.runningThread) 0xbffff) := by
  obtain ⟨tr, w, -, -, g, h, hpg, -, -⟩ := exists_process (u := 1) (.start bootWorld_init)
    (fun p hp => absurd hp List.not_mem_nil) bootWorld_inOrder (by omega) Nat.one_ne_zero rfl
  have hproc : (w.mem.task w.mem.runningThread).pgdir ≠ 0 := by omega
  obtain ⟨t, hget, hlock⟩ := h.getAPage_ok (by omega) (v := 0xbffff000) hproc (by omega) (by omega)
  have hrange : InRange .user 0xbffff000 := by
    simp only [InRange, PoolFlags.firstPage, PoolFlags.rangeBytes]
    omega
  obtain ⟨g', l, l', u, -, hgrew, rfl⟩ := (h.inv.returns_getAPage hrange).ok hget
  obtain ⟨i, hi, htarget, -⟩ := hgrew.mapped 0 Nat.one_pos
  obtain ⟨pool, mem, hu⟩ := hgrew.state
  have hrun : u.runningThread = w.mem.runningThread := by rw [hu]; rfl
  have hproc' : (u.task w.mem.runningThread).pgdir ≠ 0 := by
    rw [hu]
    show (((w.mem.setLock .user l).setVaddrBitmap .user _).task _).pgdir ≠ 0
    rw [pgdir_setVaddrBitmap]
    exact hproc
  refine ⟨g', u.setLock .user l', i, hgrew.inv.setLock .user l', ?_, hlock, hi, ?_⟩
  · show (u.task u.runningThread).pgdir ≠ 0
    rw [hrun]
    exact hproc'
  · show g'.own _ = some (.page (.user u.runningThread) 0xbffff)
    have hb := frameAddr_bounds .user hi
    rw [hrun]
    rw [← Space.dir_congr hgrew.dir] at htarget
    exact (hgrew.inv.page (.user w.mem.runningThread) 0xbffff _ ⟨hproc', by omega⟩
      htarget).resolve_left (by omega)

theorem exists_stackProcess : ∃ g s i, FrameInv g s ∧ (s.task s.runningThread).pgdir ≠ 0 ∧
    s.lock .user = lockInit ∧ s.descs .user = 0xc0060000 ∧ i < 3840 ∧
    g.own (frameAddr .user i) = some (.page (.user s.runningThread) 0xbffff) := by
  obtain ⟨g, s, i, hinv, hproc, hlock, hi, hown⟩ := exists_ownStack
  exact ⟨g, s.withDescs 0xc0060000, i, hinv.withDescs _, hproc, hlock, rfl, hi, hown⟩

/-- The arena that is one page of the process, against a state in which the page was not there. -/
theorem FrameInv.exists_booked (hinv : FrameInv g s) (hproc : (s.task s.runningThread).pgdir ≠ 0)
    {f : Nat} (hown : g.own f = some (.page (.user s.runningThread) vp)) (hlow : 0x8048 ≤ vp) :
    ∃ g₀ s₀, Booked .user g₀ s₀ g s (Arenas.empty.setKind vp (some (.large 1))) := by
  obtain ⟨⟨-, hvp⟩, htarget⟩ := hinv.mapped _ _ _ hown
  have hmarked := hinv.marked (.user s.runningThread) vp ⟨hproc, hvp⟩
    (by rw [htarget]; exact Option.some_ne_none _) (vp - 0x8048) (by omega) (by omega)
  have hcovers : ∀ p, (Arenas.empty.setKind vp (some (.large 1))).Covers p ↔ p = vp := by
    intro p
    rw [Arenas.covers_add rfl]
    simp only [ArenaKind.pages]
    constructor
    · rintro (⟨_, _, hk, -⟩ | hp)
      · cases hk
      · omega
    · rintro rfl
      exact .inr (by omega)
  have hpage : ∀ k, PoolFlags.firstPage .user + k = vp ↔ k = vp - 0x8048 := by
    intro k
    simp only [PoolFlags.firstPage]
    omega
  refine ⟨g.setOwn f none, s.setVaddrBitmap .user
    ((s.vaddr .user).vaddrBitmap.putRun false 1 (vp - 0x8048)), ?_⟩
  have hbit : ∀ k, ((s.setVaddrBitmap .user
      ((s.vaddr .user).vaddrBitmap.putRun false 1 (vp - 0x8048))).vaddr .user).vaddrBitmap.bit k =
        if k = vp - 0x8048 then false else (s.vaddr .user).vaddrBitmap.bit k := by
    intro k
    rw [vaddr_setVaddrBitmap, Bitmap.bit_putRun]
    exact if_congr (by omega) rfl rfl
  refine ⟨fun k => ?_, fun k hk => ?_, ?_, fun f' r hf' => ?_, fun f' r hf' => ?_,
    fun p hp f' hf' => ?_, ?_⟩
  · rw [hcovers, hpage, hbit]
    by_cases hk : k = vp - 0x8048
    · rw [hk]
      exact iff_of_true hmarked (.inr rfl)
    · rw [if_neg hk, or_iff_left hk]
  · rw [hbit, if_pos ((hpage k).mp ((hcovers _).mp hk))]
  · rw [vaddr_setVaddrBitmap, Bitmap.putRun_len, Bitmap.putRun_addr]
    exact ⟨rfl, rfl⟩
  · by_cases heq : f' = f
    · subst heq
      rw [g.own_setOwn_self] at hf'
      cases hf'
    · rwa [g.own_setOwn_of_ne heq] at hf'
  · by_cases heq : f' = f
    · subst heq
      exact .inr (.inl ⟨vp, (hcovers vp).mpr rfl, Option.some.inj (hf'.symm.trans hown)⟩)
    · exact .inl ((g.own_setOwn_of_ne heq _).trans hf')
  · obtain rfl := (hcovers p).mp hp
    by_cases heq : f' = f
    · subst heq
      rw [g.own_setOwn_self] at hf'
      cases hf'
    · rw [g.own_setOwn_of_ne heq] at hf'
      have htarget' := (hinv.mapped _ _ _ hf').2
      exact heq (Option.some.inj (htarget'.symm.trans htarget))
  · exact ⟨fun _ => rfl, fun _ _ _ => rfl⟩

/-- With the right contents, a page of user memory is a large arena, and its allocation may be
freed. -/
theorem exists_largeArena (hinv : FrameInv g s) (hproc : (s.task s.runningThread).pgdir ≠ 0)
    (hlock : s.lock .user = lockInit) (hplaced : DescsPlaced g (s.descs .user)) {i : Nat}
    (hi : i < 3840)
    (hown : g.own (frameAddr .user i) = some (.page (.user s.runningThread) vp))
    (hlow : 0x8048 ≤ vp) :
    ∃ mem, HeapIntact (s.setPhys mem) (4096 * vp + 12) ∧ ProcessReady (s.setPhys mem) := by
  have hdir := hinv.not_isDir_user hown
  have hpage : PageFrame g s vp (frameAddr .user i) :=
    .inr ⟨s.space .user, space_current s .user, hown, hdir⟩
  have hvp := (hinv.mapped _ _ _ hown).1.2
  have hkernel : 0xc0000000 ≤ s.descs .user := by
    obtain ⟨f, hf⟩ := hplaced.frames _ (Nat.le_refl _) (by omega)
    have hge := (hf.has hinv).1
    omega
  have hbound := hplaced.bound
  -- the kernel sets the descriptors, and the header of the page
  obtain ⟨m, hdescs, hready⟩ := does_blockDescInitLoop (s := s) (m := s.bytes) hplaced 7
    (Nat.zero_add 7) fun j hj => absurd hj (Nat.not_lt_zero j)
  have hword : ∀ off < 12, off % 4 = 0 → DataWord g s (4096 * vp + off) := by
    intro off hoff hmod
    refine ⟨⟨frameAddr .user i, ?_⟩, by omega⟩
    rw [show (4096 * vp + off) / 4096 = vp by omega]
    exact hpage
  have hheader : Does g s (do
      Mem.storeWord (4096 * vp) 0
      Mem.storeWord (4096 * vp + 4) 1
      Mem.storeWord (4096 * vp + 8) 1) m () (headerMem m (4096 * vp) 0 1 1) :=
    (does_storeWord (hword 0 (by omega) rfl) 0).bind
      ((does_storeWord (hword 4 (by omega) rfl) 1).bind (does_storeWord (hword 8 (by omega) rfl) 1))
  obtain ⟨mem, -, hflat⟩ := (hdescs.bind (k := fun _ => _) hheader).ok hinv.flat
  have hsame := SameOwner.setPhys s mem
  have huses : s.Uses .user := ⟨fun hzero => absurd hzero hproc, nofun⟩
  have hfresh : Arenas.empty.FreshRun (s.descs .user) vp 1 :=
    ⟨fun _ _ => nofun, by omega, .inl (by omega)⟩
  obtain ⟨g₀, s₀, hbooked⟩ := hinv.exists_booked hproc hown hlow
  refine ⟨mem, ⟨g₀, s₀, g, _, [⟨4096 * vp + 12, 4084⟩], _,
    ⟨?_, hbooked.congr hsame rfl rfl, hflat, ?_,
    ?_⟩, Arenas.occupied_empty.addLarge 1 4084, hlock, List.mem_singleton.mpr rfl⟩,
    ⟨g, hflat.inv, ?_⟩,
    hproc, hlock, vp, frameAddr .user i, hvp, ?_, ?_⟩
  · refine HeapPages.congr ⟨huses, hplaced, fun p hp => ?_⟩ hsame
    obtain rfl : p = vp := by
      rcases (Arenas.covers_add rfl).mp hp with ⟨_, _, hk, -⟩ | hin
      · exact nomatch hk
      · simp only [ArenaKind.pages] at hin
        omega
    exact ⟨hlow, i, hi, hown, hdir⟩
  · rw [hsame.descs]
    exact (Arenas.ok_empty _).addLarge Nat.one_pos (by omega) hfresh (by omega)
  · rw [hsame.descs]
    refine (stored_empty hbound hready).addLarge (Arenas.ok_empty _) ?_ hfresh.place.2 hfresh.apart
      fun a ha => headerMem_apply (by omega)
    exact load32_headerMem (by omega) (by omega) (by omega)
  · rw [hsame.descs]
    exact hplaced
  · exact PageFrame.target (s := s.setPhys mem) hpage hflat.inv
  · rw [hflat.inv.laidOut.start]
    unfold frameAddr
    omega

/-! ### What `SYS_FREE` changes -/

/-- While the process keeps to its allocations, the headers and links stay those of the kernel. -/
theorem HeapIntact.of_reachable {s₀ : MemState} {w : HeapWorld} (hstart : HeapStart .user s₀)
    (hw : (heapSystem .user s₀).Reachable w) {ptr : Nat} (hp : ptr ∈ ptrs w.live) :
    HeapIntact w.mem ptr := by
  obtain ⟨-, hlock, g₀, g, A, m, -, hheap, hocc⟩ := HeapInv.of_reachable hstart hw
  exact ⟨g₀, s₀, g, A, w.live, m, hheap, hocc, hlock, hp⟩

theorem exists_intactProcess : ∃ s, ProcessReady s ∧ HeapIntact s 0xbffff00c := by
  obtain ⟨g, s, i, hinv, hproc, hlock, hdescs, hi, hown⟩ := exists_stackProcess
  have himage : DescsInImage (s.descs .user) := by
    rw [hdescs]
    exact ⟨rfl, by decide, by decide⟩
  obtain ⟨mem, hintact, hready⟩ := exists_largeArena hinv hproc hlock (himage.placed g) hi hown
    (by decide)
  exact ⟨s.setPhys mem, hready, hintact⟩

end Forged

end OriginOS
