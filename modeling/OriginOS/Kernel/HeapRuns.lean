import OriginOS.Kernel.HeapFree
import OriginOS.Kernel.PageRuns

/-! Runs of `sys_malloc` and `sys_free` by one owner, either the kernel threads or one process, with
the owner's writes to its allocations in between; and the invariant that every step keeps. -/

namespace OriginOS

open Lib Arenas

/-! ### What a thread sees -/

/-- The byte that the running thread sees at a virtual address. -/
def MemState.byteAt (s : MemState) (a : Nat) : Option UInt8 := (walk s.phys s.cr3 a).map s.phys

/-- The bytes that the running thread sees, 0 where no page is mapped. -/
def MemState.bytes (s : MemState) (a : Nat) : UInt8 := (s.byteAt a).getD 0

section View

variable {pf : PoolFlags} {g g₀ : Frames} {s s₀ : MemState} {A : Arenas} {live : List Alloc}
  {m m' : Nat → UInt8} {a : Nat}

theorem Flat.byteAt (h : Flat g s m) (ha : DataPage g s (a / 4096)) : s.byteAt a = some (m a) := by
  obtain ⟨f, hf⟩ := ha
  have hk := Nat.mod_lt a (show 0 < 4096 by omega)
  unfold MemState.byteAt
  have hwalk := hf.walk h.inv hk
  have hbyte := h.bytes _ f hf _ hk
  rw [page_split] at hwalk hbyte
  rw [hwalk, Option.map_some, hbyte]

theorem Flat.bytes_eq (h : Flat g s m) (ha : DataPage g s (a / 4096)) : s.bytes a = m a := by
  unfold MemState.bytes
  rw [h.byteAt ha, Option.getD_some]

theorem FrameInv.flat (h : FrameInv g s) : Flat g s s.bytes := by
  refine ⟨h, fun vp f hf k hk => ?_⟩
  unfold MemState.bytes MemState.byteAt
  rw [hf.walk h hk]
  rfl

/-- What the memory shows of the arenas stands in the descriptors, in the headers and in the free
blocks. -/
theorem Arenas.Stored.congr {descs : Nat} (h : A.Stored descs m)
    (hdescs : ∀ a, descs ≤ a → a < descs + 168 → m' a = m a)
    (hheader : ∀ vp k, A.kind vp = some k → ∀ a, 4096 * vp ≤ a → a < 4096 * vp + 12 → m' a = m a)
    (hfree : ∀ i < 7, ∀ b ∈ A.free i, ∀ a, b ≤ a → a < b + blockSize i → m' a = m a) :
    A.Stored descs m' := by
  have hat : ∀ i, descAt descs i = descs + i * 24 := fun _ => rfl
  have hword : ∀ i < 7, ∀ off, off + 4 ≤ 24 → load32 m' (descAt descs i + off) =
      load32 m (descAt descs i + off) := by
    intro i hi off hoff
    rw [hat]
    exact load32_congr fun a ha ha' => hdescs a (by omega) (by omega)
  refine ⟨fun i hi => ?_, fun i hi => ?_, fun i hi => ?_, fun vp k hk => ?_⟩
  · exact ⟨(hword i hi 0 (by omega)).trans (h.desc i hi).1,
      (hword i hi 4 (by omega)).trans (h.desc i hi).2⟩
  · exact ⟨(hword i hi 8 (by omega)).trans (h.ends i hi).1,
      (hword i hi 20 (by omega)).trans (h.ends i hi).2⟩
  · refine h.list_congr hi (fun a ha ha' => ?_) (hfree i hi)
    rw [hat] at ha ha'
    exact hdescs a (by omega) (by omega)
  · exact (h.header vp k hk).congr (fun _ _ => rfl) (hheader vp k hk)

theorem Arenas.Holds.covers {x : Alloc} (h : A.Holds x) (ha : x.Has a) : A.Covers (a / 4096) := by
  obtain ⟨k, hkind, hlow, hhigh⟩ := h.bounds
  obtain ⟨hge, hlt⟩ := ha
  exact ⟨_, k, hkind, by omega, by omega⟩

theorem Heap.seen (h : Heap pf g₀ s₀ g s A live m) : A.Stored (s.descs pf) s.bytes := by
  have hA := h.ok.toLayout
  refine h.stored.congr (fun a ha ha' => ?_) (
    fun vp k hk a ha ha' => ?_) fun i hi b hb a ha ha' => ?_
  · obtain ⟨f, hf⟩ := h.pages.descs.frames a ha ha'
    exact h.flat.bytes_eq ⟨f, hf.pageFrame s⟩
  · refine h.flat.bytes_eq (h.pages.dataPage ?_)
    rw [show a / 4096 = vp by omega]
    exact covers_of_kind hA hk
  · have hblock := (h.free_block hi hb).1
    have hbounds := hblock.bounds
    refine h.flat.bytes_eq (h.pages.dataPage ?_)
    rw [show a / 4096 = b / 4096 by omega]
    exact covers_of_kind hA hblock.kind

theorem Heap.byteAt (h : Heap pf g₀ s₀ g s A live m) {x : Alloc} (hx : x ∈ live) (ha : x.Has a) :
    s.byteAt a = some (m a) :=
  h.flat.byteAt (h.pages.dataPage ((h.ok.holds x hx).covers ha))

end View

/-! ### Runs -/

/-- The machine, and the allocations of the owner that have not been freed. -/
structure HeapWorld where
  mem : MemState
  live : List Alloc

/-- The calls of the owner, its writes, and the switches between its threads. -/
inductive HeapAct where
  | malloc (size : Nat)
  | free (ptr : Nat)
  | write (a : Nat) (v : UInt8)
  | switchTo (t : Nat)
deriving DecidableEq, Repr

def heapExec (act : HeapAct) (w : HeapWorld) : Except Stop HeapWorld :=
  match act with
  | .malloc size => do
    let (p, mem) ← Mem.sysMalloc size w.mem
    pure ⟨mem, withResult w.live p size⟩
  | .free ptr => do
    let (_, mem) ← Mem.sysFree ptr w.mem
    pure ⟨mem, without w.live ptr⟩
  | .write a v => do
    let (_, mem) ← Mem.storeByte a v w.mem
    pure ⟨mem, w.live⟩
  | .switchTo t => do
    let (_, mem) ← Mem.pageDirActivate t w.mem
    pure ⟨{ mem with runningThread := t }, w.live⟩

/-- The owner frees what it has got and not freed since, writes to its allocations, and has other
threads only if it is the kernel. -/
def heapGuard (pf : PoolFlags) (w : HeapWorld) : HeapAct → Prop
  | .malloc _ => True
  | .free ptr => ptr ∈ ptrs w.live
  | .write a _ => ∃ x ∈ w.live, x.Has a
  | .switchTo t => pf = .kernel ∧ (w.mem.task t).pgdir = 0

/-- The runs of an owner that allocates from the pool `pf` and has no allocation in the state `s₀`.
-/
def heapSystem (pf : PoolFlags) (s₀ : MemState) : System HeapWorld HeapAct Stop where
  init w := w = ⟨s₀, []⟩
  guard := heapGuard pf
  exec := heapExec

def Arenas.empty : Arenas := ⟨fun _ => none, fun _ => []⟩

/-- A state in which an owner may begin: the machine is in order, the owner runs, its pool is not
locked, and its descriptors are as `block_desc_init` leaves them. -/
structure HeapStart (pf : PoolFlags) (s : MemState) : Prop where
  frames : ∃ g, FrameInv g s ∧ DescsPlaced g (s.descs pf)
  uses : s.Uses pf
  lock : s.lock pf = lockInit
  descs : Arenas.empty.Stored (s.descs pf) s.bytes

def HeapInv (pf : PoolFlags) (s₀ : MemState) (w : HeapWorld) : Prop :=
  w.mem.descs pf = s₀.descs pf ∧ w.mem.lock pf = lockInit ∧
    ∃ g₀ g A m, FrameInv g₀ s₀ ∧ Heap pf g₀ s₀ g w.mem A w.live m ∧ A.Occupied w.live

section Steps

variable {pf : PoolFlags} {g g₀ : Frames} {s s₀ : MemState} {A : Arenas} {live : List Alloc}
  {m : Nat → UInt8} {w w' : HeapWorld} {a : Nat}

theorem Arenas.not_covers_empty (vp : Nat) : ¬ Arenas.empty.Covers vp := by
  rintro ⟨_, _, hkind, -⟩
  exact nomatch hkind

theorem Arenas.ok_empty (descs : Nat) : Arenas.empty.Ok descs [] := by
  refine ⟨⟨fun _ _ => nofun, fun _ _ => nofun, fun _ _ _ _ => nofun⟩,
    fun i hi b => ⟨fun hb => absurd hb List.not_mem_nil, ?_⟩, fun x hx =>
    absurd hx List.not_mem_nil,
    List.nodup_nil⟩
  rintro ⟨⟨_, hk, -⟩, -⟩
  exact nomatch hk

theorem Arenas.occupied_empty : Arenas.empty.Occupied [] := ⟨fun _ _ => nofun, fun _ _ => nofun⟩

theorem HeapStart.heap (h : HeapStart pf s) :
    ∃ g m, FrameInv g s ∧ Heap pf g s g s Arenas.empty [] m := by
  obtain ⟨g, hinv, hplaced⟩ := h.frames
  have hnone := fun vp => Arenas.not_covers_empty vp
  refine ⟨g, s.bytes, hinv, ⟨h.uses, hplaced, fun vp hvp => absurd hvp (hnone vp)⟩, ?_,
    hinv.flat, Arenas.ok_empty _, h.descs⟩
  exact {
    bits := fun k => (or_iff_left (hnone _)).symm
    clear := fun k hk => absurd hk (hnone _)
    bitmap := ⟨rfl, rfl⟩
    owned := fun _ _ hown => hown
    added := fun _ _ hown => .inl hown
    fresh := fun vp hvp => absurd hvp (hnone vp)
    pools := ⟨fun _ => rfl, fun _ _ _ => rfl⟩ }

theorem HeapInv.init (h : HeapStart pf s₀) : HeapInv pf s₀ ⟨s₀, []⟩ := by
  obtain ⟨g, m, hinv, hheap⟩ := h.heap
  exact ⟨rfl, h.lock, g, g, _, m, hinv, hheap, Arenas.occupied_empty⟩

namespace Arenas

variable {descs : Nat} {x y : Alloc}

theorem Ok.live_descs (h : A.Ok descs live) (hx : x ∈ live) (ha : x.Has a) :
    a < descs ∨ descs + 168 ≤ a := by
  obtain ⟨k, hkind, hlow, hhigh⟩ := (h.holds x hx).bounds
  have hplace := (h.place _ _ hkind).2
  obtain ⟨hge, hlt⟩ := ha
  omega

theorem Ok.live_header (h : A.Ok descs live) (hx : x ∈ live) (ha : x.Has a) {vp : Nat}
    {k : ArenaKind}
    (hkind : A.kind vp = some k) : a < 4096 * vp ∨ 4096 * vp + 12 ≤ a := by
  obtain ⟨k', hkind', hlow, hhigh⟩ := (h.holds x hx).bounds
  obtain ⟨hge, hlt⟩ := ha
  by_cases hvp : vp = x.ptr / 4096
  · omega
  · have hapart := h.apart _ _ _ _ hkind hkind' hvp
    have hpos := ArenaKind.pages_pos (h.made _ _ hkind)
    omega

theorem Ok.live_free (h : A.Ok descs live) (hx : x ∈ live) (ha : x.Has a) {i b : Nat} (hi : i < 7)
    (hb : b ∈ A.free i) : a < b ∨ b + blockSize i ≤ a := by
  obtain ⟨hblock, hdead⟩ := (h.free i hi b).mp hb
  exact (h.untouched_of_live hx ha.1 ha.2 hi).block hblock hdead

theorem Ok.live_apart (h : A.Ok descs live) (hx : x ∈ live) (hy : y ∈ live) (hne : x.ptr ≠ y.ptr)
    (ha : x.Has a) : ¬ y.Has a := by
  rintro ⟨hge', hlt'⟩
  obtain ⟨hge, hlt⟩ := ha
  obtain ⟨k, hkind, hlow, hhigh⟩ := (h.holds x hx).bounds
  obtain ⟨k', hkind', hlow', hhigh'⟩ := (h.holds y hy).bounds
  by_cases hpage : x.ptr / 4096 = y.ptr / 4096
  · -- in one arena, which is small or has room for one of them
    rcases h.holds x hx with ⟨i, hblock, hsize⟩ | ⟨vp, n, hlarge, hptr, -⟩ <;>
      rcases h.holds y hy with ⟨j, hblock', hsize'⟩ | ⟨vp', n', hlarge', hptr', -⟩
    · have hapart := hblock.apart hblock' hne
      omega
    · have hsmall := hblock.kind
      rw [show x.ptr / 4096 = vp' by omega, hlarge'] at hsmall
      exact nomatch hsmall
    · have hsmall := hblock'.kind
      rw [show y.ptr / 4096 = vp by omega, hlarge] at hsmall
      exact nomatch hsmall
    · omega
  · have hapart := h.apart _ _ _ _ hkind hkind' hpage
    omega

end Arenas

/-- The bytes of the allocations are the same in both states. -/
def Kept (live : List Alloc) (s t : MemState) : Prop :=
  ∀ x ∈ live, ∀ a, x.Has a → t.byteAt a = s.byteAt a

/-- `sys_malloc` keeps the invariant and the bytes of all allocations, and its result is zero. -/
theorem HeapInv.malloc (h : HeapInv pf s₀ w) {size p : Nat} {t : MemState}
    (hok : Mem.sysMalloc size w.mem = .ok (p, t)) :
    HeapInv pf s₀ ⟨t, withResult w.live p size⟩ ∧ Kept w.live w.mem t ∧
      (p ≠ 0 → ∀ a, Alloc.Has ⟨p, size⟩ a → t.byteAt a = some 0) := by
  obtain ⟨hdescs, hlock, g₀, g, A, m, hinv, hheap, hocc⟩ := h
  obtain ⟨g', A', m', hmal⟩ :=
    (hheap.ensures_sysMalloc hocc hlock (E := fun _ => True) (fun _ _ => trivial) size).ok hok
  refine ⟨⟨(hmal.same.descs pf).trans hdescs, ?_, g₀, g', A', m', hinv, hmal.heap, hmal.occupied⟩,
    fun x hx a ha => ?_, fun hp a ha => ?_⟩
  · rw [hmal.lock]
    exact hlock
  · have hx' : x ∈ withResult w.live p size := by
      unfold withResult
      split
      · exact hx
      · exact List.mem_cons_of_mem _ hx
    rw [hmal.heap.byteAt hx' ha, hheap.byteAt hx ha, hmal.others x hx a ha]
  · have hx' : ⟨p, size⟩ ∈ withResult w.live p size := by
      unfold withResult
      rw [if_neg hp]
      exact List.mem_cons_self
    rw [hmal.heap.byteAt hx' ha, hmal.zero hp a ha]

theorem HeapInv.free (h : HeapInv pf s₀ w) {p : Nat} (hp : p ∈ ptrs w.live) :
    ∃ t, Mem.sysFree p w.mem = .ok ((), t) ∧ HeapInv pf s₀ ⟨t, without w.live p⟩ ∧
      Kept (without w.live p) w.mem t := by
  obtain ⟨hdescs, hlock, g₀, g, A, m, hinv, hheap, hocc⟩ := h
  have hfree := hheap.ensures_sysFree hocc hlock hp (E := fun _ => False)
  cases hok : Mem.sysFree p w.mem with
  | error e => exact (hfree.error hok).elim
  | ok r =>
    obtain ⟨⟨⟩, t⟩ := r
    obtain ⟨g', A', m', hfrees⟩ := hfree.ok hok
    refine ⟨t, rfl, ⟨(hfrees.same.descs pf).trans hdescs, ?_, g₀, g', A', m', hinv, hfrees.heap,
      hfrees.occupied⟩, fun x hx a ha => ?_⟩
    · rw [hfrees.lock]
      exact hlock
    · rw [hfrees.heap.byteAt hx ha, hheap.byteAt (mem_without.mp hx).1 ha, hfrees.others x hx a ha]

theorem HeapInv.write (h : HeapInv pf s₀ w) {x : Alloc} (hx : x ∈ w.live) (ha : x.Has a)
    (v : UInt8) :
    ∃ t, Mem.storeByte a v w.mem = .ok ((), t) ∧ HeapInv pf s₀ ⟨t, w.live⟩ := by
  obtain ⟨hdescs, hlock, g₀, g, A, m, hinv, hheap, hocc⟩ := h
  have hpage := hheap.pages.dataPage ((hheap.ok.holds x hx).covers ha)
  obtain ⟨mem, hok, hflat⟩ := (does_storeByte hpage v).ok hheap.flat
  have hother : ∀ b, b ≠ a → Function.update m a v b = m b := fun b hb =>
    Function.update_of_ne hb ..
  have hstored : A.Stored (w.mem.descs pf) (Function.update m a v) := by
    refine hheap.stored.congr (fun b hb hb' => hother b ?_) (fun vp k hk b hb hb' => hother b ?_)
      fun i hi c hc b hb hb' => hother b ?_
    · have := hheap.ok.live_descs hx ha
      omega
    · have := hheap.ok.live_header hx ha hk
      omega
    · have := hheap.ok.live_free hx ha hi hc
      omega
  exact ⟨_, hok, ((SameOwner.setPhys _ mem).descs pf).trans hdescs, hlock, g₀, g, A, _, hinv,
    hheap.setPhys hflat hstored, hocc⟩

theorem HeapInv.switch (h : HeapInv .kernel s₀ w) {t : Nat} (ht : (w.mem.task t).pgdir = 0) :
    ∃ u, Mem.pageDirActivate t w.mem = .ok ((), u) ∧
      HeapInv .kernel s₀ ⟨{ u with runningThread := t }, w.live⟩ := by
  obtain ⟨hdescs, hlock, g₀, g, A, m, hinv, hheap, hocc⟩ := h
  have hflat : Flat g { w.mem with cr3 := g.dir t, runningThread := t } m := by
    refine ⟨hheap.flat.inv.switch t, fun vp f hf => hheap.flat.bytes vp f ?_⟩
    rcases hf with hlow | ⟨sp, hcur, hown, hdir⟩
    · exact .inl hlow
    · cases sp with
      | kernel => exact .inr ⟨.kernel, trivial, hown, hdir⟩
      | user u =>
        obtain rfl : u = t := hcur
        exact absurd ht (hheap.flat.inv.mapped _ _ _ hown).1.1
  have hbooked := hheap.booked
  refine ⟨_, hheap.flat.inv.pageDirActivate_ok t, hdescs, hlock, g₀, g, A, m, hinv,
    ⟨⟨⟨fun _ => rfl, fun _ => ht⟩, hheap.pages.descs, hheap.pages.pages⟩, ?_, hflat, hheap.ok,
      hheap.stored⟩, hocc⟩
  exact ⟨hbooked.bits, hbooked.clear, hbooked.bitmap, hbooked.owned, hbooked.added, hbooked.fresh,
    hbooked.pools⟩

theorem heapStep_cases {act : HeapAct} (step : (heapSystem pf s₀).Step w act w') :
    (∃ size p, act = .malloc size ∧ Mem.sysMalloc size w.mem = .ok (p, w'.mem) ∧
      w'.live = withResult w.live p size) ∨
    (∃ p, act = .free p ∧ p ∈ ptrs w.live ∧ Mem.sysFree p w.mem = .ok ((), w'.mem) ∧
      w'.live = without w.live p) ∨
    (∃ a v, act = .write a v ∧ (∃ x ∈ w.live, x.Has a) ∧ Mem.storeByte a v w.mem =
    .ok ((), w'.mem) ∧
      w'.live = w.live) ∨
    ∃ t u, act = .switchTo t ∧ (pf = .kernel ∧ (w.mem.task t).pgdir = 0) ∧
      Mem.pageDirActivate t w.mem = .ok ((), u) ∧ w' = ⟨{ u with runningThread := t }, w.live⟩ := by
  obtain ⟨hguard, hexec⟩ := step
  cases act with
  | malloc size =>
    obtain ⟨⟨p, t⟩, hok, heq⟩ := exists_of_bind_eq_ok hexec
    obtain rfl := Except.ok.inj heq
    exact .inl ⟨size, p, rfl, hok, rfl⟩
  | free p =>
    obtain ⟨⟨⟨⟩, t⟩, hok, heq⟩ := exists_of_bind_eq_ok hexec
    obtain rfl := Except.ok.inj heq
    exact .inr (.inl ⟨p, rfl, hguard, hok, rfl⟩)
  | write a v =>
    obtain ⟨⟨⟨⟩, t⟩, hok, heq⟩ := exists_of_bind_eq_ok hexec
    obtain rfl := Except.ok.inj heq
    exact .inr (.inr (.inl ⟨a, v, rfl, hguard, hok, rfl⟩))
  | switchTo t =>
    obtain ⟨⟨⟨⟩, u⟩, hok, heq⟩ := exists_of_bind_eq_ok hexec
    obtain rfl := Except.ok.inj heq
    exact .inr (.inr (.inr ⟨t, u, rfl, hguard, hok, rfl⟩))

theorem HeapInv.step (h : HeapInv pf s₀ w) {act : HeapAct}
    (step : (heapSystem pf s₀).Step w act w') : HeapInv pf s₀ w' := by
  obtain ⟨mem', live'⟩ := w'
  rcases heapStep_cases step with ⟨size, p, -, hok, rfl⟩ | ⟨p, -, hp, hok, rfl⟩ |
    ⟨a, v, -, ⟨x, hx, ha⟩, hok, rfl⟩ | ⟨t, u, -, ⟨rfl, ht⟩, hok, heq⟩
  · exact (h.malloc hok).1
  · obtain ⟨t, hok', hinv, -⟩ := h.free hp
    obtain rfl := (Prod.mk.inj (Except.ok.inj (hok.symm.trans hok'))).2
    exact hinv
  · obtain ⟨t, hok', hinv⟩ := h.write hx ha v
    obtain rfl := (Prod.mk.inj (Except.ok.inj (hok.symm.trans hok'))).2
    exact hinv
  · obtain ⟨u', hok', hinv⟩ := h.switch ht
    obtain rfl := (Prod.mk.inj (Except.ok.inj (hok.symm.trans hok'))).2
    rw [heq]
    exact hinv

theorem HeapInv.of_reachable (h : HeapStart pf s₀) (hw : (heapSystem pf s₀).Reachable w) :
    HeapInv pf s₀ w := by
  refine hw.invariant (fun u hu => ?_) fun _ _ _ hinv step => hinv.step step
  obtain rfl : u = ⟨s₀, []⟩ := hu
  exact HeapInv.init h

end Steps

end OriginOS
