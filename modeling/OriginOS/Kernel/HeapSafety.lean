import OriginOS.Kernel.AddressSpaces
import OriginOS.Kernel.HeapRuns

/-! What holds in every run of `sys_malloc` and `sys_free`: the allocations are apart from each
other and from what the heap keeps for itself, and the lists, the counters and the bitmaps agree
with them. -/

namespace OriginOS

open Lib Arenas

/-! ### `block_desc_init` -/

/-- The memory after a descriptor has been set, with an empty free list. -/
def descMem (m : Nat → UInt8) (desc size blocks : Nat) : Nat → UInt8 :=
  let m := store32 (store32 m desc size) (desc + 4) blocks
  let m := store32 (store32 m (desc + 8) 0) (desc + 12) (desc + 16)
  store32 (store32 m (desc + 16) (desc + 8)) (desc + 20) 0

structure DescReady (m : Nat → UInt8) (descs i : Nat) : Prop where
  size : load32 m (descAt descs i) = blockSize i
  blocks : load32 m (descAt descs i + 4) = blocksPerArena i
  headPrev : load32 m (descAt descs i + 8) = 0
  headNext : load32 m (descAt descs i + 12) = descAt descs i + 16
  tailPrev : load32 m (descAt descs i + 16) = descAt descs i + 8
  tailNext : load32 m (descAt descs i + 20) = 0

section DescInit

variable {g : Frames} {s : MemState} {m m' : Nat → UInt8} {descs i : Nat}

theorem blockSize_le (hi : i < 7) : blockSize i ≤ 1024 := by
  have hpow : 2 ^ i ≤ 2 ^ 6 := Nat.pow_le_pow_right (by omega) (by omega)
  unfold blockSize
  omega

theorem descMem_apply {desc size blocks a : Nat} (ha : a < desc ∨ desc + 24 ≤ a) :
    descMem m desc size blocks a = m a := by
  simp only [descMem]
  rw [store32_apply_of_not (by omega), store32_apply_of_not (by omega),
    store32_apply_of_not (by omega),
    store32_apply_of_not (by omega), store32_apply_of_not (by omega),
    store32_apply_of_not (by omega)]

theorem DescReady.congr (h : DescReady m descs i)
    (hmem : ∀ a, descAt descs i ≤ a → a < descAt descs i + 24 → m' a = m a) :
    DescReady m' descs i := by
  have hword : ∀ off, off + 4 ≤ 24 →
      load32 m' (descAt descs i + off) = load32 m (descAt descs i + off) :=
    fun off hoff => load32_congr fun a ha ha' => hmem a (by omega) (by omega)
  exact ⟨(hword 0 (by omega)).trans h.size, (hword 4 (by omega)).trans h.blocks,
    (hword 8 (by omega)).trans h.headPrev, (hword 12 (by omega)).trans h.headNext,
    (hword 16 (by omega)).trans h.tailPrev, (hword 20 (by omega)).trans h.tailNext⟩

theorem descReady_descMem (hbound : descAt descs i + 24 ≤ 2 ^ 32) (hi : i < 7) :
    DescReady (descMem m (descAt descs i) (blockSize i) (blocksPerArena i)) descs i := by
  have hsize := blockSize_le hi
  have hper : blocksPerArena i ≤ 4084 := Nat.div_le_self ..
  generalize hd : descAt descs i = d at hbound
  constructor <;> rw [hd] <;>
    simp (disch := omega) only [descMem, load32_store32_self, load32_store32_of_disjoint]

theorem does_descInit (h : DescsPlaced g descs) (hi : i < 7) (size blocks : Nat) :
    Does g s (do
      Mem.storeWord (descAt descs i) size
      Mem.storeWord (Mem.field (descAt descs i) 4) blocks
      Mem.listInit (Mem.field (descAt descs i) 8)) m ()
      (descMem m (descAt descs i) size blocks) := by
  have hbound := h.bound
  have haligned := h.aligned
  have hat : descAt descs i = descs + i * 24 := rfl
  have hword : ∀ off, off + 4 ≤ 24 → off % 4 = 0 → DataWord g s (descAt descs i + off) :=
    fun off hoff hmod => h.dataWord s (by omega) (by omega) (by omega)
  refine (does_storeWord (hword 0 (by omega) rfl) _).bind ?_
  rw [Mem.field_eq (by omega), Mem.field_eq (by omega)]
  refine (does_storeWord (hword 4 (by omega) rfl) _).bind ?_
  unfold Mem.listInit
  rw [Mem.field_eq (by omega), Mem.field_eq (by omega), Mem.field_eq (by omega)]
  refine (does_storeWord (hword 8 (by omega) rfl) _).bind ?_
  refine (does_storeWord (hword 12 (by omega) rfl) _).bind ?_
  refine (does_storeWord (hword 16 (by omega) rfl) _).bind ?_
  exact does_storeWord (hword 20 (by omega) rfl) _

theorem does_blockDescInitLoop (h : DescsPlaced g descs) (cnt : Nat) {idx : Nat}
    (hidx : idx + cnt = 7) (hready : ∀ j < idx, DescReady m descs j) :
    ∃ m', Does g s (Mem.blockDescInitLoop descs cnt idx (blockSize idx)) m () m' ∧
      ∀ j < 7, DescReady m' descs j := by
  induction cnt generalizing idx m with
  | zero => exact ⟨m, Does.pure (), fun j hj => hready j (by omega)⟩
  | succ cnt ih =>
    have hbound := h.bound
    have hat : ∀ j, descAt descs j = descs + j * 24 := fun _ => rfl
    have hsize := blockSize_le (show idx < 7 by omega)
    have hdouble : blockSize idx * 2 % 2 ^ 16 = blockSize (idx + 1) := by
      have hsucc : blockSize (idx + 1) = blockSize idx * 2 := by
        unfold blockSize
        rw [Nat.pow_succ, Nat.mul_assoc]
      omega
    have hready' : ∀ j < idx + 1,
        DescReady (descMem m (descAt descs idx) (blockSize idx) (blocksPerArena idx)) descs j := by
      intro j hj
      have hj' := hat j
      have hi' := hat idx
      by_cases heq : j = idx
      · subst heq
        exact descReady_descMem (by omega) (by omega)
      · exact (hready j (by omega)).congr fun a ha ha' => descMem_apply (by omega)
    obtain ⟨m', hdoes, hall⟩ := ih (show idx + 1 + cnt = 7 by omega) hready'
    refine ⟨m', ?_, hall⟩
    have hfirst := does_descInit (s := s) (m := m) h (show idx < 7 by omega) (blockSize idx)
      (blocksPerArena idx)
    unfold Mem.blockDescInitLoop
    rw [hdouble]
    have hboth := hfirst.bind (k := fun _ => Mem.blockDescInitLoop descs cnt (idx + 1)
      (blockSize (idx + 1))) hdoes
    simp only [bind_assoc] at hboth
    exact hboth

theorem stored_empty (hbound : descs + 168 ≤ 2 ^ 32) (h : ∀ j < 7, DescReady m descs j) :
    Arenas.empty.Stored descs m := by
  refine ⟨fun i hi => ⟨(h i hi).size, (h i hi).blocks⟩, fun i hi =>
    ⟨(h i hi).headPrev, (h i hi).tailNext⟩,
    fun i hi => ⟨⟨(h i hi).headNext, (h i hi).tailPrev⟩, ?_, fun z hz => ?_⟩, fun _ _ => nofun⟩
  · refine List.pairwise_cons.mpr ⟨fun z hz => ?_, List.pairwise_singleton _ _⟩
    obtain rfl := List.mem_singleton.mp hz
    exact .inl (by omega)
  · have hat : descAt descs i = descs + i * 24 := rfl
    rcases List.mem_cons.mp hz with rfl | hz
    · omega
    · obtain rfl := List.mem_singleton.mp hz
      omega

theorem blockDescInit_start {pf : PoolFlags} (hinv : FrameInv g s)
    (hplaced : DescsPlaced g (s.descs pf))
    (huses : s.Uses pf) (hlock : s.lock pf = lockInit) :
    ∃ mem, Mem.blockDescInit (s.descs pf) s = .ok ((), s.setPhys mem) ∧ FrameInv g (s.setPhys mem) ∧
      HeapStart pf (s.setPhys mem) := by
  obtain ⟨m', hdoes, hready⟩ := does_blockDescInitLoop (s := s) (m := s.bytes) hplaced 7
    (Nat.zero_add 7) fun j hj => absurd hj (Nat.not_lt_zero j)
  obtain ⟨mem, hok, hflat⟩ := hdoes.ok hinv.flat
  have hsame := SameOwner.setPhys s mem
  refine ⟨mem, hok, hflat.inv, ⟨g, hflat.inv, ?_⟩, hsame.uses.mpr huses, hlock, ?_⟩
  · rw [hsame.descs]
    exact hplaced
  · rw [hsame.descs]
    refine (stored_empty hplaced.bound hready).congr (fun a ha ha' => ?_) (fun _ _ => nofun)
      fun i hi b hb => absurd hb List.not_mem_nil
    obtain ⟨f, hf⟩ := hplaced.frames a ha ha'
    exact hflat.bytes_eq ⟨f, hf.pageFrame _⟩

/-- Descriptors among the variables of the kernel's image, which is loaded into the low 1 MiB. -/
structure DescsInImage (descs : Nat) : Prop where
  aligned : descs % 4 = 0
  low : 0xc0000000 ≤ descs
  high : descs + 168 ≤ 0xc0100000

theorem DescsInImage.placed (h : DescsInImage descs) (g : Frames) : DescsPlaced g descs := by
  obtain ⟨haligned, hlow, hhigh⟩ := h
  refine ⟨haligned, by omega, fun a ha ha' => ⟨4096 * (a / 4096 - 0xc0000), .inl ?_⟩⟩
  exact ⟨a / 4096 - 0xc0000, by omega, by omega, rfl⟩

/-- The state in which the kernel threads begin: `mem_init` has ended with
`block_desc_init(k_block_descs)`. -/
def KernelHeapStart (s₀ : MemState) : Prop :=
  ∃ s, AfterMemInit s ∧ DescsInImage s.kBlockDescs ∧
    Mem.blockDescInit s.kBlockDescs s = .ok ((), s₀)

theorem AfterMemInit.blockDescInit_ok (h : AfterMemInit s) (himage : DescsInImage s.kBlockDescs) :
    ∃ mem, Mem.blockDescInit s.kBlockDescs s = .ok ((), s.setPhys mem) ∧
      FrameInv ⟨fun _ => bootDir, fun _ => none⟩ (s.setPhys mem) ∧
      HeapStart .kernel (s.setPhys mem) := by
  have hplaced : DescsPlaced ⟨fun _ => bootDir, fun _ => none⟩ (s.descs .kernel) := himage.placed _
  have huses : s.Uses .kernel := ⟨fun _ => rfl, fun _ => h.threads _⟩
  obtain ⟨mem, hok, hinv, hstart⟩ := blockDescInit_start h.frameInv hplaced huses (h.locks .kernel)
  exact ⟨mem, hok, hinv, hstart⟩

theorem KernelHeapStart.heapStart (h : KernelHeapStart s) : HeapStart .kernel s := by
  obtain ⟨s', hinit, himage, hok⟩ := h
  obtain ⟨mem, hok', -, hstart⟩ := hinit.blockDescInit_ok himage
  obtain rfl := (Prod.mk.inj (Except.ok.inj (hok.symm.trans hok'))).2
  exact hstart

end DescInit

/-! ### A first allocation -/

theorem sysMallocLarge_result {pf : PoolFlags} {size v p : Nat} {s s' t : MemState}
    (hpage : Mem.mallocPage pf (Mem.divRoundUp (size + Mem.arenaSize) pgSize) s = .ok (v, s'))
    (hv : v ≠ 0) (hok : Mem.sysMallocLarge pf size s = .ok (p, t)) : p = v + 12 := by
  unfold Mem.sysMallocLarge at hok
  rw [bind_of_ok hpage, if_pos hv, bind_apply] at hok
  obtain ⟨_, -, hok⟩ := exists_of_bind_eq_ok hok
  obtain ⟨_, -, hok⟩ := exists_of_bind_eq_ok hok
  obtain ⟨_, -, hok⟩ := exists_of_bind_eq_ok hok
  obtain ⟨_, -, hok⟩ := exists_of_bind_eq_ok hok
  exact (Prod.mk.inj (Except.ok.inj hok)).1.symm

theorem AfterMemInit.sysMalloc_ok {s : MemState} (h : AfterMemInit s)
    (himage : DescsInImage s.kBlockDescs) {size : Nat} (hlow : 1024 < size)
    (hhigh : size < 15000000) :
    ∃ s₀ t, KernelHeapStart s₀ ∧ Mem.sysMalloc size s₀ = .ok (0xc010000c, t) := by
  obtain ⟨mem, hok, hinv, hstart⟩ := h.blockDescInit_ok himage
  obtain ⟨g, m, -, hheap⟩ := hstart.heap
  obtain ⟨bits, hpools, hvaddr⟩ := h.pools
  set s₀ := s.setPhys mem with hs₀
  have hpool : ∀ j < 3840, (s₀.pool .kernel).poolBitmap.bit j = decide (j < 0) := by
    intro j hj
    show (s.pool .kernel).poolBitmap.bit j = false
    rw [hpools]
    exact bit_memPoolInit bits .kernel hj
  have hrange : ∀ j < 3840, s₀.kernelVaddr.vaddrBitmap.bit j = decide (j < 0) := by
    intro j hj
    show s.kernelVaddr.vaddrBitmap.bit j = false
    rw [hvaddr]
    exact bit_kernelVaddr_memPoolInit bits hj
  have hpoolSize : (s₀.pool .kernel).poolSize = 15728640 := by
    show (s.pool .kernel).poolSize = 15728640
    rw [hpools]
    rfl
  -- the lock is free, and the pages are there
  have hn : 0 < Mem.divRoundUp (size + Mem.arenaSize) pgSize ∧
      0 + Mem.divRoundUp (size + Mem.arenaSize) pgSize < 3840 := by
    unfold Mem.divRoundUp Mem.arenaSize pgSize
    omega
  have hheld := hheap.setLock .kernel ⟨0, some s₀.runningThread, 1⟩
  obtain ⟨u, hpage, -⟩ := (hinv.setLock .kernel ⟨0, some s₀.runningThread, 1⟩).mallocPage_first
    hpool hrange hn.1 hn.2
  have hensures := hheld.ensures_sysMallocLarge (E := fun _ => False)
    ⟨fun _ _ => nofun, fun _ _ => nofun⟩ size fun e he => nomatch hpage.symm.trans he
  cases hlarge : Mem.sysMallocLarge .kernel size
    (s₀.setLock .kernel ⟨0, some s₀.runningThread, 1⟩) with
  | error e => exact (hensures.error hlarge).elim
  | ok r =>
    obtain ⟨p, t⟩ := r
    obtain ⟨g', A', m', hmal⟩ := hensures.ok hlarge
    have hp : p = 0xc010000c := sysMallocLarge_result hpage (by omega) hlarge
    have hlock : t.lock .kernel = ⟨0, some t.runningThread, 1⟩ := by
      rw [hmal.lock, hmal.same.running]
      show Function.update s₀.lock .kernel ⟨0, some s₀.runningThread, 1⟩ .kernel = _
      exact Function.update_self ..
    refine ⟨s₀, t.setLock .kernel lockInit, ⟨s, h, himage, hok⟩, ?_⟩
    unfold Mem.sysMalloc
    rw [Mem.read_bind]
    simp only [hheap.pages.uses.flag, hpoolSize]
    rw [if_neg (by omega), bind_of_ok (Mem.lockAcquire_ok hstart.lock), if_pos hlow,
      bind_of_ok hlarge, bind_of_ok (Mem.lockRelease_ok hlock), hp]
    rfl

/-- A machine with one thread, whose descriptors are in the kernel's image. -/
def bootHeap : MemState := { bootWorld.mem with kBlockDescs := 0xc0050000 }

theorem exists_allocation : ∃ s₀ w, KernelHeapStart s₀ ∧ (heapSystem .kernel s₀).Reachable w ∧
    w.live = [⟨0xc010000c, 5000⟩] := by
  have hinit : AfterMemInit bootHeap :=
    ⟨rfl, bootTables, ⟨fun _ => 0, rfl, rfl⟩, fun _ => rfl, rfl, fun _ => rfl⟩
  obtain ⟨s₀, t, hstart, hok⟩ := hinit.sysMalloc_ok ⟨rfl, by decide, by decide⟩
    (show 1024 < 5000 by omega) (by omega)
  have hexec : heapExec (.malloc 5000) ⟨s₀, []⟩ = .ok ⟨t, [⟨0xc010000c, 5000⟩]⟩ := by
    rw [heapExec, hok]
    rfl
  have hfirst : (heapSystem .kernel s₀).Reachable ⟨s₀, []⟩ := .init rfl
  have step : (heapSystem .kernel s₀).Step ⟨s₀, []⟩ (.malloc 5000) ⟨t, [⟨0xc010000c, 5000⟩]⟩ :=
    ⟨trivial, hexec⟩
  exact ⟨s₀, _, hstart, hfirst.next step, rfl⟩

/-! ### Safety -/

/-- The allocations of an owner that began in `s₀` are where they should be. The arenas are those
that the owner sees in its memory, and their pages are the ones that it has taken since then. -/
structure HeapSafe (pf : PoolFlags) (s₀ : MemState) (w : HeapWorld) (A : Arenas) : Prop where
  seen : A.Stored (w.mem.descs pf) w.mem.bytes
  pages : ∀ k, (w.mem.vaddr pf).vaddrBitmap.bit k = true ↔
    (s₀.vaddr pf).vaddrBitmap.bit k = true ∨ A.Covers (pf.firstPage + k)
  mapped : ∀ x ∈ w.live, ∀ a, x.Has a → w.mem.byteAt a ≠ none
  disjoint : w.live.Pairwise fun x y => ∀ a, x.Has a → ¬ y.Has a
  inside : ∀ x ∈ w.live, ∃ k, A.kind (x.ptr / 4096) = some k ∧
    ∀ a, x.Has a → 4096 * (x.ptr / 4096) ≤ a ∧ a < 4096 * (x.ptr / 4096 + k.pages)
  headers : ∀ x ∈ w.live, ∀ a, x.Has a → ∀ vp k, A.kind vp = some k →
    a < 4096 * vp ∨ 4096 * vp + 12 ≤ a
  free : ∀ x ∈ w.live, ∀ a, x.Has a → ∀ i < 7, ∀ b ∈ A.free i, a < b ∨ b + blockSize i ≤ a

/-- A call leaves the other allocations as they are, and what `sys_malloc` returns is zero. -/
def CallSafe (w : HeapWorld) (act : HeapAct) (w' : HeapWorld) : Prop :=
  match act with
  | .malloc size => ∃ p, Mem.sysMalloc size w.mem = .ok (p, w'.mem) ∧
    w'.live = withResult w.live p size ∧ Kept w.live w.mem w'.mem ∧
    (p ≠ 0 → ∀ a, Alloc.Has ⟨p, size⟩ a → w'.mem.byteAt a = some 0)
  | .free p => w'.live = without w.live p ∧ Kept (without w.live p) w.mem w'.mem
  | _ => True

section Safety

variable {pf : PoolFlags} {s₀ : MemState} {w w' : HeapWorld}

theorem HeapInv.safe (h : HeapInv pf s₀ w) : ∃ A, HeapSafe pf s₀ w A := by
  obtain ⟨-, -, g₀, g, A, m, -, hheap, -⟩ := h
  refine ⟨A, hheap.seen, hheap.booked.bits, fun x hx a ha hnone => ?_, ?_, fun x hx => ?_,
    fun x hx a ha vp k => hheap.ok.live_header hx ha, fun x hx a ha i hi b =>
    hheap.ok.live_free hx ha hi⟩
  · exact nomatch hnone.symm.trans (hheap.byteAt hx ha)
  · have hne : w.live.Pairwise fun x y => x.ptr ≠ y.ptr := List.pairwise_map.mp hheap.ok.nodup
    exact hne.imp_of_mem fun hx hy hxy a ha => hheap.ok.live_apart hx hy hxy ha
  · obtain ⟨k, hkind, hlow, hhigh⟩ := (hheap.ok.holds x hx).bounds
    refine ⟨k, hkind, fun a ha => ?_⟩
    obtain ⟨hge, hlt⟩ := ha
    omega

theorem HeapInv.callSafe (h : HeapInv pf s₀ w) {act : HeapAct}
    (step : (heapSystem pf s₀).Step w act w') : CallSafe w act w' := by
  rcases heapStep_cases step with ⟨size, p, rfl, hok, hlive⟩ | ⟨p, rfl, hp, hok, hlive⟩ |
    ⟨a, v, rfl, -⟩ | ⟨t, u, rfl, -⟩
  · exact ⟨p, hok, hlive, (h.malloc hok).2⟩
  · obtain ⟨t, hok', -, hkept⟩ := h.free hp
    obtain rfl := (Prod.mk.inj (Except.ok.inj (hok.symm.trans hok'))).2
    exact ⟨hlive, hkept⟩
  · trivial
  · trivial

end Safety

/-! ### Accounting -/

/-- The kernel's bitmaps and free lists are as they were in `s₀`. -/
structure NoTrace (s₀ s : MemState) : Prop where
  pool : ∀ i < 3840, (s.pool .kernel).poolBitmap.bit i = (s₀.pool .kernel).poolBitmap.bit i
  vaddr : ∀ k, s.kernelVaddr.vaddrBitmap.bit k = s₀.kernelVaddr.vaddrBitmap.bit k
  lists : ∀ i < 7, ∀ off < 6, load32 s.bytes (descAt s.kBlockDescs i + 4 * off) =
    load32 s₀.bytes (descAt s₀.kBlockDescs i + 4 * off)

/-- The free lists, the counters and the bitmaps agree with the allocations of the kernel threads,
which began in `s₀`; no assertion about the free lists can fail. -/
structure Accounted (s₀ : MemState) (w : HeapWorld) (A : Arenas) : Prop where
  seen : A.Stored w.mem.kBlockDescs w.mem.bytes
  pages : ∀ k, w.mem.kernelVaddr.vaddrBitmap.bit k = true ↔
    s₀.kernelVaddr.vaddrBitmap.bit k = true ∨ A.Covers (PoolFlags.kernel.firstPage + k)
  nodup : ∀ i < 7, (A.free i).Nodup
  free : ∀ i < 7, ∀ b, b ∈ A.free i ↔ A.Block i b ∧ b ∉ ptrs w.live
  count : ∀ vp i, A.kind vp = some (.small i) →
    load32 w.mem.bytes (4096 * vp + 4) = A.count vp i ∧ A.count vp i < blocksPerArena i
  mallocAsserts : ∀ size p, Mem.sysMalloc size w.mem = .error (.panic p) → p.func ≠ "sys_malloc"
  freeReturns : ∀ p ∈ ptrs w.live, ∃ t, Mem.sysFree p w.mem = .ok ((), t)
  noLeak : w.live = [] → NoTrace s₀ w.mem

section Accounting

variable {descs i : Nat} {A : Arenas} {m m' : Nat → UInt8} {s₀ : MemState} {w : HeapWorld}

theorem Arenas.Ok.kind_of_dead (h : A.Ok descs []) (hocc : A.Occupied []) (vp : Nat) :
    A.kind vp = none := by
  cases hkind : A.kind vp with
  | none => rfl
  | some k =>
    cases k with
    | large n => exact absurd (hocc.large vp n hkind) List.not_mem_nil
    | small i =>
      -- all blocks of the arena are free, so its counter is too large
      have hi : i < 7 := h.made vp _ hkind
      have hsub : blocksOf vp i ⊆ (A.free i).filter (· / 4096 = vp) := by
        intro b hb
        obtain ⟨idx, hidx, rfl⟩ := mem_blocksOf.mp hb
        refine List.mem_filter.mpr ⟨(h.free i hi _).mpr ⟨⟨vp, hkind, idx, hidx, rfl⟩,
          List.not_mem_nil⟩,
          decide_eq_true (blockAt_div hidx)⟩
      have hlen := ((blocksOf_nodup vp i).subperm hsub).length_le
      rw [length_blocksOf, ← count_eq] at hlen
      exact absurd (hocc.small vp i hkind) (Nat.not_lt.mpr hlen)

theorem Arenas.Ok.free_of_dead (h : A.Ok descs []) (hocc : A.Occupied []) (hi : i < 7) :
    A.free i = [] := by
  refine List.eq_nil_iff_forall_not_mem.mpr fun b hb => ?_
  obtain ⟨⟨vp, hkind, -⟩, -⟩ := (h.free i hi b).mp hb
  exact nomatch hkind.symm.trans (h.kind_of_dead hocc vp)

theorem Arenas.Stored.descReady (h : A.Stored descs m) (hi : i < 7) (hfree : A.free i = []) :
    DescReady m descs i := by
  have hlist := (h.list i hi).seg
  rw [hfree] at hlist
  exact ⟨(h.desc i hi).1, (h.desc i hi).2, (h.ends i hi).1, hlist.1, hlist.2, (h.ends i hi).2⟩

theorem DescReady.word_eq (h : DescReady m descs i) (h' : DescReady m' descs i) {off : Nat}
    (hoff : off < 6) :
    load32 m (descAt descs i + 4 * off) = load32 m' (descAt descs i + 4 * off) := by
  obtain rfl | rfl | rfl | rfl | rfl | rfl :
    off = 0 ∨ off = 1 ∨ off = 2 ∨ off = 3 ∨ off = 4 ∨ off = 5 := by omega
  · exact h.size.trans h'.size.symm
  · exact h.blocks.trans h'.blocks.symm
  · exact h.headPrev.trans h'.headPrev.symm
  · exact h.headNext.trans h'.headNext.symm
  · exact h.tailPrev.trans h'.tailPrev.symm
  · exact h.tailNext.trans h'.tailNext.symm

theorem HeapInv.noTrace (h : HeapInv .kernel s₀ w) (hstart : HeapStart .kernel s₀)
    (hdead : w.live = []) : NoTrace s₀ w.mem := by
  obtain ⟨hdescs, -, g₀, g, A, m, hinv, hheap, hocc⟩ := h
  rw [hdead] at hheap hocc
  have hcovers : ∀ vp, ¬ A.Covers vp := by
    rintro vp ⟨vp', k, hkind, -⟩
    exact nomatch hkind.symm.trans (hheap.ok.kind_of_dead hocc vp')
  have hown : ∀ f, g.own f ≠ none ↔ g₀.own f ≠ none := by
    intro f
    constructor
    · intro hne
      obtain ⟨r, hr⟩ := Option.ne_none_iff_exists'.mp hne
      rcases hheap.booked.added f r hr with hold | ⟨vp, hvp, -⟩ | ⟨hspace, -⟩
      · rw [hold]
        exact Option.some_ne_none _
      · exact absurd hvp (hcovers vp)
      · exact absurd rfl hspace
    · intro hne
      obtain ⟨r, hr⟩ := Option.ne_none_iff_exists'.mp hne
      rw [hheap.booked.owned f r hr]
      exact Option.some_ne_none _
  refine ⟨fun i hi => ?_, fun k => ?_, fun i hi off hoff => ?_⟩
  · rw [Bool.eq_iff_iff, hheap.flat.inv.bit .kernel i hi, hinv.bit .kernel i hi]
    exact hown _
  · rw [Bool.eq_iff_iff]
    exact (hheap.booked.bits k).trans (or_iff_left (hcovers _))
  · have hnow := hheap.seen.descReady hi (hheap.ok.free_of_dead hocc hi)
    have hthen := hstart.descs.descReady hi rfl
    rw [← hdescs] at hthen
    have hword := hnow.word_eq hthen hoff
    rw [show w.mem.kBlockDescs = s₀.kBlockDescs from hdescs]
    rw [show w.mem.descs .kernel = s₀.kBlockDescs from hdescs] at hword
    exact hword

end Accounting

end OriginOS
