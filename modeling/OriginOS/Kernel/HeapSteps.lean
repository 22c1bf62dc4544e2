import OriginOS.Kernel.HeapInvariant
import OriginOS.Kernel.HeapLoops

/-! What `sys_malloc` and `sys_free` do to a heap. -/

namespace OriginOS

open Lib

/-- A heap: its arenas lie in the owner's pages, the bitmaps account for them, and the memory shows
them. The state `s₀` with the uses `g₀` of the frames is the one it has started from. -/
structure Heap (pf : PoolFlags) (g₀ : Frames) (s₀ : MemState) (g : Frames) (s : MemState)
    (A : Arenas) (live : List Alloc) (m : Nat → UInt8) : Prop where
  pages : HeapPages pf g s A
  booked : Booked pf g₀ s₀ g s A
  flat : Flat g s m
  ok : A.Ok (s.descs pf) live
  stored : A.Stored (s.descs pf) m

section Layout

variable {pf : PoolFlags} {g : Frames} {s : MemState} {A A' : Arenas} {m : Nat → UInt8}
  {descs vp i a b : Nat} {l : List Nat} {k : ArenaKind}

theorem Arenas.covers_congr (h : A'.kind = A.kind) : A'.Covers vp ↔ A.Covers vp := by
  unfold Arenas.Covers
  rw [h]

theorem HeapPages.of_kind (h : HeapPages pf g s A) (hkind : A'.kind = A.kind) :
    HeapPages pf g s A' :=
  ⟨h.uses, h.descs, fun vp hvp => h.pages vp ((Arenas.covers_congr hkind).mp hvp)⟩

theorem Booked.of_kind {g₀ : Frames} {s₀ : MemState} (h : Booked pf g₀ s₀ g s A)
    (hkind : A'.kind = A.kind) : Booked pf g₀ s₀ g s A' := by
  have hcov : A'.Covers = A.Covers := funext fun vp => propext (Arenas.covers_congr hkind)
  refine ⟨?_, ?_, h.bitmap, h.owned, ?_, ?_, h.pools⟩
  · rw [hcov]
    exact h.bits
  · rw [hcov]
    exact h.clear
  · rw [hcov]
    exact h.added
  · rw [hcov]
    exact h.fresh

namespace Arenas

theorem covers_of_kind (hA : A.Layout descs) (hkind : A.kind vp = some k) : A.Covers vp := by
  have hpos := ArenaKind.pages_pos (hA.made vp k hkind)
  exact ⟨vp, k, hkind, Nat.le_refl vp, by omega⟩

theorem Block.header_apart (hb : A.Block i b) (hA : A.Layout descs) (hkind : A.kind vp = some k) :
    4096 * vp + 12 ≤ b ∨ b + blockSize i ≤ 4096 * vp := by
  have hbounds := hb.bounds
  by_cases hvp : vp = b / 4096
  · omega
  · have hap := hA.apart vp _ k _ hkind hb.kind hvp
    have hpos := ArenaKind.pages_pos (hA.made vp k hkind)
    simp only [ArenaKind.pages] at hap
    omega

theorem Block.descs_apart (hb : A.Block i b) (hA : A.Layout descs) :
    b + blockSize i ≤ descs ∨ descs + 168 ≤ b := by
  have hbounds := hb.bounds
  have hplace := (hA.place _ _ hb.kind).2
  simp only [ArenaKind.pages] at hplace
  omega

theorem Layout.offLinks_header (hA : A.Layout descs) (hkind : A.kind vp = some k) (hi : i < 7)
    (hl : ∀ z ∈ l, A.Block i z) (hlow : 4096 * vp ≤ a) (hhigh : a < 4096 * vp + 12) :
    OffLinks (descAt descs i + 8) l (descAt descs i + 16) a := by
  have hplace := (hA.place vp k hkind).2
  have hpos := ArenaKind.pages_pos (hA.made vp k hkind)
  refine ⟨?_, fun z hz => ?_, ?_⟩
  · simp only [descAt, Mem.descSize]
    omega
  · have hap := (hl z hz).header_apart hA hkind
    have hsize := sixteen_le_blockSize i
    omega
  · simp only [descAt, Mem.descSize]
    omega

theorem Layout.offLinks_desc (hA : A.Layout descs) (hi : i < 7) (hl : ∀ z ∈ l, A.Block i z)
    (hlow : descAt descs i ≤ a) (hhigh : a < descAt descs i + 12) :
    OffLinks (descAt descs i + 8) l (descAt descs i + 16) a := by
  refine ⟨by omega, fun z hz => ?_, by omega⟩
  have hap := (hl z hz).descs_apart hA
  have hsize := sixteen_le_blockSize i
  simp only [descAt, Mem.descSize] at hlow hhigh
  omega

end Arenas

theorem HeapPages.blockNode (h : HeapPages pf g s A) (hA : A.Layout descs) (hb : A.Block i b) :
    DataNode g s b := by
  have hbounds := hb.bounds
  have hmod := hb.mod
  have hsize := sixteen_le_blockSize i
  have hplace := (hA.place _ _ hb.kind).1
  have hcov := Arenas.covers_of_kind hA hb.kind
  simp only [ArenaKind.pages] at hplace
  refine ⟨h.dataWord hcov hmod, h.dataWord ?_ (by omega), by omega⟩
  rw [show (b + 4) / 4096 = b / 4096 by omega]
  exact hcov

theorem HeapPages.listNodes (h : HeapPages pf g s A) (hA : A.Layout (s.descs pf)) (hi : i < 7)
    (hl : ∀ z ∈ l, A.Block i z) :
    ∀ z ∈ (descAt (s.descs pf) i + 8) :: (l ++ [descAt (s.descs pf) i + 16]), DataNode g s z := by
  have hmod := h.descs.aligned
  intro z hz
  simp only [List.mem_cons, List.mem_append, List.not_mem_nil, or_false] at hz
  rcases hz with rfl | hz | rfl
  · refine h.descs.dataNode s ?_ ?_ ?_ <;> simp only [descAt, Mem.descSize] <;> omega
  · exact h.blockNode hA (hl z hz)
  · refine h.descs.dataNode s ?_ ?_ ?_ <;> simp only [descAt, Mem.descSize] <;> omega

theorem HeapPages.descWord (h : HeapPages pf g s A) (hi : i < 7) {o : Nat} (ho : o < 24)
    (hmod : o % 4 = 0) : DataWord g s (descAt (s.descs pf) i + o) := by
  have halign := h.descs.aligned
  refine h.descs.dataWord s ?_ ?_ ?_ <;> simp only [descAt, Mem.descSize] <;> omega

theorem HeapPages.headerWord (h : HeapPages pf g s A) (hA : A.Layout descs)
    (hkind : A.kind vp = some k) {o : Nat} (ho : o < 12) (hmod : o % 4 = 0) :
    DataWord g s (4096 * vp + o) := by
  refine h.dataWord ?_ (by omega)
  rw [show (4096 * vp + o) / 4096 = vp by omega]
  exact Arenas.covers_of_kind hA hkind

theorem HeapPages.arenaView (h : HeapPages pf g s A) (hA : A.Layout (s.descs pf))
    (hkind : A.kind vp = some (.small i)) (hl : ∀ z ∈ l, A.Block i z) (hnodup : l.Nodup)
    (harena : load32 m (4096 * vp) = descAt (s.descs pf) i)
    (hdesc : load32 m (descAt (s.descs pf) i) = blockSize i ∧
      load32 m (descAt (s.descs pf) i + 4) = blocksPerArena i) :
    ArenaView g s m (descAt (s.descs pf) i) vp i l := by
  have hi : i < 7 := hA.made vp _ hkind
  have hends : ∀ z ∈ l, NodesApart (descAt (s.descs pf) i + 8) z ∧
      NodesApart z (descAt (s.descs pf) i + 16) := by
    intro z hz
    have hap := (hl z hz).descs_apart hA
    have hsize := sixteen_le_blockSize i
    simp only [NodesApart, descAt, Mem.descSize]
    omega
  refine ⟨h.listNodes hA hi hl, ?_, ⟨h.headerWord hA hkind (o := 0) (by omega) rfl,
    h.descWord hi (o := 0) (by omega) rfl, h.descWord hi (by omega) rfl⟩, ?_, harena, hdesc.1,
    hdesc.2⟩
  · refine List.pairwise_cons.mpr ⟨fun z hz => ?_, List.pairwise_append.mpr
      ⟨?_, List.pairwise_singleton .., fun z hz y hy => ?_⟩⟩
    · simp only [List.mem_append, List.mem_singleton] at hz
      rcases hz with hz | rfl
      · exact (hends z hz).1
      · exact .inl (by omega)
    · refine (List.Pairwise.and_mem.mp hnodup).imp fun {b c} hbc => ?_
      have hap := (hl b hbc.1).apart (hl c hbc.2.1) hbc.2.2
      have hsize := sixteen_le_blockSize i
      unfold NodesApart
      omega
    · rw [List.mem_singleton.mp hy]
      exact (hends z hz).2
  · intro w hw a ha ha'
    simp only [List.mem_cons, List.not_mem_nil, or_false] at hw
    rcases hw with rfl | rfl | rfl
    · exact hA.offLinks_header hkind hi hl ha (by omega)
    · exact hA.offLinks_desc hi hl ha (by omega)
    · exact hA.offLinks_desc hi hl (by omega) (by omega)

end Layout

/-- The allocations after a call of `sys_malloc` that returns `p`. -/
def withResult (live : List Alloc) (p size : Nat) : List Alloc :=
  if p = 0 then live else ⟨p, size⟩ :: live

def Alloc.Has (x : Alloc) (a : Nat) : Prop := x.ptr ≤ a ∧ a < x.ptr + x.size

/-- After a call of `sys_malloc` that returns `p`: an allocation that is not null has been zero, and
the others show what they showed before. -/
structure Mallocs (pf : PoolFlags) (g₀ : Frames) (s₀ s : MemState) (live : List Alloc)
    (m : Nat → UInt8) (size p : Nat) (t : MemState) (g' : Frames) (A' : Arenas) (m' : Nat → UInt8) :
    Prop where
  heap : Heap pf g₀ s₀ g' t A' (withResult live p size) m'
  occupied : A'.Occupied (withResult live p size)
  same : SameOwner s t
  lock : t.lock = s.lock
  others : ∀ x ∈ live, ∀ a, x.Has a → m' a = m a
  zero : p ≠ 0 → ∀ a, Alloc.Has ⟨p, size⟩ a → m' a = 0

section Malloc

variable {pf : PoolFlags} {g g₀ : Frames} {s s₀ : MemState} {A : Arenas} {live : List Alloc}
  {m : Nat → UInt8} {E : Stop → Prop} {size i : Nat}

theorem Heap.mallocs_null (h : Heap pf g₀ s₀ g s A live m) (hocc : A.Occupied live) (size : Nat) :
    Mallocs pf g₀ s₀ s live m size 0 s g A m :=
  ⟨h, hocc, ⟨rfl, fun _ => rfl, rfl, fun _ => rfl⟩, rfl, fun _ _ _ _ => rfl, fun h => absurd rfl h⟩

/-- The header words of an arena with new contents. -/
def headerMem (m : Nat → UInt8) (a desc cnt large : Nat) : Nat → UInt8 :=
  store32 (store32 (store32 m a desc) (a + 4) cnt) (a + 8) large

theorem load32_headerMem {a desc cnt large : Nat} (hdesc : desc < 2 ^ 32) (hcnt : cnt < 2 ^ 32)
    (hlarge : large < 2 ^ 32) : load32 (headerMem m a desc cnt large) a = desc ∧
      load32 (headerMem m a desc cnt large) (a + 4) = cnt ∧
      load32 (headerMem m a desc cnt large) (a + 8) = large := by
  unfold headerMem
  refine ⟨?_, ?_, load32_store32_self hlarge⟩
  · rw [load32_store32_of_disjoint (by omega), load32_store32_of_disjoint (by omega),
      load32_store32_self hdesc]
  · rw [load32_store32_of_disjoint (by omega), load32_store32_self hcnt]

theorem headerMem_apply {a b desc cnt large : Nat} (h : b < a ∨ a + 12 ≤ b) :
    headerMem m a desc cnt large b = m b := by
  unfold headerMem
  rw [store32_apply_of_not (by omega), store32_apply_of_not (by omega),
    store32_apply_of_not (by omega)]

theorem le_divRoundUp (x : Nat) : x ≤ 4096 * Mem.divRoundUp x pgSize := by
  unfold Mem.divRoundUp pgSize
  omega

theorem NewPages.dataPage {t : MemState} {vp n : Nat} {g' : Frames} {m₁ : Nat → UInt8}
    (h : NewPages pf g₀ s₀ s t A m vp n g' m₁) (hA : A.Layout (s.descs pf)) (k : ArenaKind)
    (hk : k.pages = n) {b : Nat} (hlow : 4096 * vp ≤ b) (hhigh : b < 4096 * (vp + n)) :
    DataPage g' t (b / 4096) := by
  have hnone := h.run.kind_none hA h.count.1
  refine (h.pages k hk).1.dataPage ((Arenas.covers_add hnone).mpr (.inr ?_))
  omega

theorem Heap.ensures_sysMallocLarge (h : Heap pf g₀ s₀ g s A live m) (hocc : A.Occupied live)
    (size : Nat)
    (hE : ∀ e, Mem.mallocPage pf (Mem.divRoundUp (size + Mem.arenaSize) pgSize) s =
    .error e → E e) :
    Ensures (Mem.sysMallocLarge pf size) E
      (fun p t => ∃ g' A' m', Mallocs pf g₀ s₀ s live m size p t g' A' m') s := by
  have hA := h.ok.toLayout
  refine ((h.pages.ensures_mallocPage (E := fun _ => True) h.booked hA h.flat (fun _ _ => trivial)
    _).of_error hE).bind fun v t hv => ?_
  rcases hv with ⟨rfl, rfl⟩ | ⟨vp, g', m₁, rfl, hnew⟩
  · exact ensures_pure ⟨g, A, m, h.mallocs_null hocc size⟩
  have hne : 4096 * vp ≠ 0 := by
    have hpos := hnew.pos
    omega
  rw [if_pos hne]
  have hround := le_divRoundUp (size + Mem.arenaSize)
  generalize hn : Mem.divRoundUp (size + Mem.arenaSize) pgSize = n at hnew hround
  obtain ⟨hpos, hlt⟩ := hnew.count
  have hplace := hnew.run.place.1
  have hdata : ∀ b, 4096 * vp ≤ b → b < 4096 * (vp + n) → DataPage g' t (b / 4096) :=
    fun b => hnew.dataPage hA (.large n) rfl
  have hword : ∀ off < 12, off % 4 = 0 → DataWord g' t (4096 * vp + off) :=
    fun off hoff hmod => ⟨hdata _ (by omega) (by omega), by omega⟩
  -- the memory that the branch leaves
  have hdoes : Does g' t (do
      Mem.memset (4096 * vp) 0 (n * pgSize)
      Mem.storeWord (4096 * vp) 0
      Mem.storeWord (Mem.field (4096 * vp) 4) n
      Mem.storeWord (Mem.field (4096 * vp) 8) 1
      pure (4096 * vp + Mem.arenaSize)) m₁ (4096 * vp + 12)
      (headerMem (fill m₁ (4096 * vp) (n * pgSize) 0) (4096 * vp) 0 n 1) := by
    rw [Mem.field_eq (by omega), Mem.field_eq (by omega)]
    refine (does_memset 0 _ hne fun b hb hb' => hdata b hb (by unfold pgSize at hb'; omega)).bind ?_
    refine (does_storeWord (hword 0 (by omega) rfl) 0).bind ?_
    refine (does_storeWord (hword 4 (by omega) rfl) n).bind ?_
    exact (does_storeWord (hword 8 (by omega) rfl) 1).bind (Does.pure _)
  obtain ⟨mem', hok, hflat⟩ := hdoes.ok hnew.flat
  have hsame := hnew.same.trans (SameOwner.setPhys t mem')
  have hframe : ∀ a, a < 4096 * vp ∨ 4096 * (vp + n) ≤ a →
      headerMem (fill m₁ (4096 * vp) (n * pgSize) 0) (4096 * vp) 0 n 1 a = m a := by
    intro a ha
    rw [headerMem_apply (by omega), fill_apply_of_not (by unfold pgSize; omega)]
    exact hnew.bytes a ha
  have hlive : withResult live (4096 * vp + 12) size = ⟨4096 * vp + 12, size⟩ :: live :=
    if_neg (by omega)
  refine ensures_of_ok hok ⟨g', A.setKind vp (some (.large n)), _, ⟨⟨?_, ?_, hflat, ?_, ?_⟩, ?_,
    hsame, hnew.lock, fun x hx a ha => hframe a ?_, fun _ a ha => ?_⟩⟩
  · exact (hnew.pages (.large n) rfl).1.congr (SameOwner.setPhys t mem')
  · exact (hnew.pages (.large n) rfl).2.congr (SameOwner.setPhys t mem') rfl rfl
  · rw [hlive, hsame.descs]
    exact h.ok.addLarge hpos (by omega) hnew.run hround
  · rw [hsame.descs]
    refine h.stored.addLarge h.ok ?_ hnew.run.place.2 hnew.run.apart hframe
    exact load32_headerMem (by omega) (by omega) (by omega)
  · rw [hlive]
    exact hocc.addLarge n size
  · obtain ⟨k, hkind, hfirst, hend⟩ := (h.ok.holds x hx).bounds
    obtain ⟨hlow, hhigh⟩ := ha
    have hap := hnew.run.apart _ _ hkind
    omega
  · have hlow : 4096 * vp + 12 ≤ a := ha.1
    have hhigh : a < 4096 * vp + 12 + size := ha.2
    rw [headerMem_apply (by omega), fill_apply_of_mem]
    simp only [Mem.arenaSize] at hround
    unfold pgSize
    omega

/-- The search for a descriptor stops at the first one whose blocks are large enough. -/
theorem does_sysMallocDesc (hstored : A.Stored (s.descs pf) m) (hpages : HeapPages pf g s A)
    (hsize : size ≤ 1024) (cnt : Nat) {idx : Nat} (hidx : idx + cnt = 6) :
    ∃ i < 7, size ≤ blockSize i ∧ (∀ j, idx ≤ j → j < i → blockSize j < size) ∧
      Does g s (Mem.sysMallocDesc (s.descs pf) size (cnt + 1) idx) m i m := by
  have hload := does_loadWord (m := m) (hpages.descWord (i := idx) (by omega) (o := 0)
    (by omega) rfl)
  rw [Nat.add_zero, (hstored.desc idx (by omega)).1] at hload
  induction cnt generalizing idx with
  | zero =>
    obtain rfl : idx = 6 := by omega
    have hfit : size ≤ blockSize 6 := hsize
    refine ⟨6, by omega, hfit, by omega, hload.bind ?_⟩
    rw [if_pos hfit]
    exact Does.pure 6
  | succ cnt ih =>
    by_cases hle : size ≤ blockSize idx
    · refine ⟨idx, by omega, hle, by omega, hload.bind ?_⟩
      rw [if_pos hle]
      exact Does.pure idx
    · have hload' := does_loadWord (m := m)
        (hpages.descWord (i := idx + 1) (by omega) (o := 0) (by omega) rfl)
      rw [Nat.add_zero, (hstored.desc (idx + 1) (by omega)).1] at hload'
      obtain ⟨i, hi, hfit, hleast, hdoes⟩ := ih (by omega) hload'
      refine ⟨i, hi, hfit, fun j hj hlt => ?_, hload.bind ?_⟩
      · rcases Nat.eq_or_lt_of_le hj with rfl | hgt
        · exact Nat.lt_of_not_le hle
        · exact hleast j hgt hlt
      · rw [if_neg hle]
        exact hdoes

/-- The memory after a block has been taken off its free list, with `cnt` blocks left in its arena.
-/
def poppedMem (m : Nat → UInt8) (i b cnt : Nat) : Nat → UInt8 :=
  store32 (fill (unlink m b) b (blockSize i) 0) (4096 * (b / 4096) + 4) cnt

theorem block2arena_eq {b : Nat} (hb : b < 2 ^ 32) : Mem.block2arena b = 4096 * (b / 4096) := by
  unfold Mem.block2arena
  rw [and_page_mask hb, Nat.mul_comm]

theorem Heap.free_block (h : Heap pf g₀ s₀ g s A live m) (hi : i < 7) {b : Nat}
    (hb : b ∈ A.free i) :
    A.Block i b ∧ b ∉ ptrs live := (h.ok.free i hi b).mp hb

theorem Heap.free_nodup (h : Heap pf g₀ s₀ g s A live m) (hi : i < 7) : (A.free i).Nodup :=
  (List.nodup_append.mp (List.nodup_cons.mp (h.stored.list i hi).nodup).2).1

theorem Heap.does_sysMallocBlock (h : Heap pf g₀ s₀ g s A live m) (hi : i < 7) {b : Nat}
    {l : List Nat} (hfree : A.free i = b :: l) :
    Does g s (Mem.sysMallocBlock (descAt (s.descs pf) i)) m b
      (poppedMem m i b (A.count (b / 4096) i - 1)) := by
  have hA := h.ok.toLayout
  have hblocks : ∀ z ∈ b :: l, A.Block i z := fun z hz => (h.free_block hi (hfree ▸ hz)).1
  have hblock := hblocks b List.mem_cons_self
  have hbounds := hblock.bounds
  have hsize := sixteen_le_blockSize i
  have hlist := h.stored.list i hi
  rw [hfree] at hlist
  have hnodes := h.pages.listNodes hA hi hblocks
  have hend := (hnodes (descAt (s.descs pf) i + 16) (by simp)).bound
  have hbnode := (hnodes b (by simp)).bound
  have hheader : ∀ a, 4096 * (b / 4096) ≤ a → a < 4096 * (b / 4096) + 12 → unlink m b a = m a :=
    fun a ha ha' => hlist.unlink_apply (l := []) (hA.offLinks_header hblock.kind hi hblocks ha ha')
  have hdesc : load32 (unlink m b) (descAt (s.descs pf) i) = blockSize i := by
    rw [← (h.stored.desc i hi).1]
    exact load32_congr fun a ha ha' =>
      hlist.unlink_apply (l := []) (hA.offLinks_desc hi hblocks ha (by omega))
  have hcnt : load32 (fill (unlink m b) b (blockSize i) 0) (4096 * (b / 4096) + 4) =
      A.count (b / 4096) i := by
    rw [← (h.stored.header _ _ hblock.kind).2.1]
    refine load32_congr fun a ha ha' => ?_
    rw [fill_apply_of_not (by omega)]
    exact hheader a (by omega) (by omega)
  have hpos : 0 < A.count (b / 4096) i := by
    rw [Arenas.count_pop _ hfree, if_pos rfl]
    omega
  have hlt := load32_lt (fill (unlink m b) b (blockSize i) 0) (4096 * (b / 4096) + 4)
  unfold Mem.sysMallocBlock poppedMem
  rw [Mem.field_eq (by omega)]
  refine (does_listPop hlist hnodes).bind ?_
  refine (does_loadWord (h.pages.descWord hi (o := 0) (by omega) rfl)).bind ?_
  rw [Nat.add_zero, hdesc]
  refine (does_memset 0 _ (by omega) fun c hc hc' => ?_).bind ?_
  · rw [show c / 4096 = b / 4096 by omega]
    exact h.pages.dataPage (Arenas.covers_of_kind hA hblock.kind)
  · have hword := h.pages.headerWord hA hblock.kind (o := 4) (by omega) rfl
    simp only [block2arena_eq (b := b) (by omega)]
    rw [show Mem.field (4096 * (b / 4096)) 4 = _ from Mem.field_eq (by omega)]
    refine (does_loadWord hword).bind ?_
    rw [hcnt] at hlt ⊢
    rw [show (A.count (b / 4096) i + 2 ^ 32 - 1) % 2 ^ 32 = A.count (b / 4096) i - 1 by omega]
    exact (does_storeWord hword _).bind (Does.pure b)

theorem Heap.poppedMem_apply (h : Heap pf g₀ s₀ g s A live m) (hi : i < 7) {b : Nat} {l : List Nat}
    (hfree : A.free i = b :: l) (cnt : Nat) {a : Nat} (ha : A.Untouched (s.descs pf) live i a) :
    poppedMem m i b cnt a = m a := by
  have hdead : ∀ z ∈ b :: l, A.Block i z ∧ z ∉ ptrs live := fun z hz => h.free_block hi (hfree ▸ hz)
  obtain ⟨hblock, hnot⟩ := hdead b List.mem_cons_self
  have hheader := ha.header hblock.kind
  have hout := ha.block hblock hnot
  have hlist := h.stored.list i hi
  rw [hfree] at hlist
  unfold poppedMem
  rw [store32_apply_of_not (by omega), fill_apply_of_not (by omega)]
  exact hlist.unlink_apply (l := []) (ha.offLinks hdead)

theorem Heap.dlist_popped (h : Heap pf g₀ s₀ g s A live m) (hi : i < 7) {b : Nat} {l : List Nat}
    (hfree : A.free i = b :: l) (cnt : Nat) :
    Dlist (poppedMem m i b cnt) (descAt (s.descs pf) i + 8) l (descAt (s.descs pf) i + 16) := by
  have hA := h.ok.toLayout
  have hblocks : ∀ z ∈ b :: l, A.Block i z := fun z hz => (h.free_block hi (hfree ▸ hz)).1
  have hblock := hblocks b List.mem_cons_self
  have hlist := h.stored.list i hi
  have hnodup := h.free_nodup hi
  rw [hfree] at hlist hnodup
  refine (hlist.unlink (l := [])).congr fun z hz a ha ha' => ?_
  have hsize := sixteen_le_blockSize i
  have hheader := fun c hc => (hblocks c hc).header_apart hA hblock.kind
  have hdescs := hblock.descs_apart hA
  have hplace := (hA.place _ _ hblock.kind).2
  simp only [ArenaKind.pages] at hplace
  -- a node is neither in the block nor in the header of its arena
  have hapart : (a < b ∨ b + blockSize i ≤ a) ∧
      (a < 4096 * (b / 4096) + 4 ∨ 4096 * (b / 4096) + 8 ≤ a) := by
    simp only [List.nil_append, List.mem_cons, List.mem_append, List.not_mem_nil, or_false] at hz
    rcases hz with rfl | hz | rfl
    · simp only [descAt, Mem.descSize] at ha ha'
      omega
    · have hne : z ≠ b := fun heq => (List.nodup_cons.mp hnodup).1 (heq ▸ hz)
      have hap := (hblocks z (List.mem_cons_of_mem _ hz)).apart hblock hne
      have hhead := hheader z (List.mem_cons_of_mem _ hz)
      omega
    · simp only [descAt, Mem.descSize] at ha ha'
      omega
  unfold poppedMem
  rw [store32_apply_of_not (by omega), fill_apply_of_not (by omega)]

theorem Heap.header_popped (h : Heap pf g₀ s₀ g s A live m) (hi : i < 7) {b : Nat} {l : List Nat}
    (hfree : A.free i = b :: l) {vp : Nat} (hkind : A.kind vp = some (.small i)) :
    Arenas.Header (s.descs pf) (A.setFree i l) (poppedMem m i b (A.count (b / 4096) i - 1)) vp
      (.small i) := by
  have hA := h.ok.toLayout
  have hblocks : ∀ z ∈ b :: l, A.Block i z := fun z hz => (h.free_block hi (hfree ▸ hz)).1
  have hblock := hblocks b List.mem_cons_self
  have hbounds := hblock.bounds
  have hapart := hblock.header_apart hA hkind
  have hlist := h.stored.list i hi
  rw [hfree] at hlist
  have hold := h.stored.header vp _ hkind
  have hcount := Arenas.count_pop vp hfree
  have hmem : ∀ a, 4096 * vp ≤ a → a < 4096 * vp + 12 →
      fill (unlink m b) b (blockSize i) 0 a = m a := by
    intro a ha ha'
    rw [fill_apply_of_not (by omega)]
    exact hlist.unlink_apply (l := []) (hA.offLinks_header hkind hi hblocks ha ha')
  have hload : ∀ off, off + 4 ≤ 12 → load32 (fill (unlink m b) b (blockSize i) 0)
    (4096 * vp + off) =
      load32 m (4096 * vp + off) :=
    fun off hoff => load32_congr fun a ha ha' => hmem a (by omega) (by omega)
  obtain ⟨hdesc, hcnt, hlarge⟩ := hold
  have hdesc' := (hload 0 (by omega)).trans hdesc
  have hcnt' := (hload 4 (by omega)).trans hcnt
  have hlarge' := (hload 8 (by omega)).trans hlarge
  rw [Nat.add_zero] at hdesc'
  by_cases hvp : b / 4096 = vp
  · rw [if_pos hvp] at hcount
    have hlt := load32_lt m (4096 * vp + 4)
    unfold poppedMem
    rw [hvp]
    refine ⟨?_, ?_, ?_⟩
    · rw [load32_store32_of_disjoint (by omega)]
      exact hdesc'
    · rw [load32_store32_self (by omega)]
      omega
    · rw [load32_store32_of_disjoint (by omega)]
      exact hlarge'
  · rw [if_neg hvp] at hcount
    have hother : ∀ off, off + 4 ≤ 12 → load32 (poppedMem m i b (A.count (b / 4096) i - 1))
        (4096 * vp + off) = load32 (fill (unlink m b) b (blockSize i) 0) (4096 * vp + off) :=
      fun off hoff => load32_store32_of_disjoint (by omega)
    refine ⟨(hother 0 (by omega)).trans hdesc', (hother 4 (by omega)).trans (hcnt'.trans ?_),
      (hother 8 (by omega)).trans hlarge'⟩
    omega

theorem Heap.popped (h : Heap pf g₀ s₀ g s A live m) (hi : i < 7) {b : Nat} {l : List Nat}
    (hfree : A.free i = b :: l) (hsize : size ≤ blockSize i)
    (hsmall : ∀ vp j, A.kind vp = some (.small j) →
      A.count vp j < blocksPerArena j ∨ j = i ∧ b / 4096 = vp)
    (hlarge : ∀ vp n, A.kind vp = some (.large n) → 4096 * vp + 12 ∈ ptrs live) :
    Ensures (Mem.sysMallocBlock (descAt (s.descs pf) i)) E
      (fun p t => ∃ g' A' m', Mallocs pf g₀ s₀ s live m size p t g' A' m') s := by
  have hA := h.ok.toLayout
  have hnodup := h.free_nodup hi
  obtain ⟨hblock, hnot⟩ := h.free_block hi (b := b) (hfree ▸ List.mem_cons_self)
  have hbounds := hblock.bounds
  obtain ⟨mem', hok, hflat⟩ := (h.does_sysMallocBlock hi hfree).ok h.flat
  have hsame := SameOwner.setPhys s mem'
  have hlive : withResult live b size = ⟨b, size⟩ :: live := if_neg (by omega)
  have hframe : ∀ a, A.Untouched (s.descs pf) live i a →
      poppedMem m i b (A.count (b / 4096) i - 1) a = m a := fun a => h.poppedMem_apply hi hfree _
  refine ensures_of_ok hok ⟨g, A.setFree i l, _, ⟨⟨?_, ?_, hflat, ?_, ?_⟩, ?_, hsame, rfl,
    fun x hx a ha => hframe a (h.ok.untouched_of_live hx ha.1 ha.2 hi), fun _ a ha => ?_⟩⟩
  · exact (h.pages.congr hsame).of_kind rfl
  · exact (h.booked.congr hsame rfl rfl).of_kind rfl
  · rw [hlive, hsame.descs]
    exact h.ok.pop hi hfree (hfree ▸ hnodup) hsize
  · rw [hsame.descs]
    refine h.stored.update live hA hi (fun j hj => Arenas.free_setFree_of_ne hj l)
      (fun j hj _ c hc => (h.free_block hj hc).1) (fun _ _ hk _ => ⟨hk, hk⟩) ?_
      (fun vp hk => h.header_popped hi hfree hk) hframe
    rw [Arenas.free_setFree_self]
    exact h.dlist_popped hi hfree _
  · rw [hlive]
    exact Arenas.Occupied.pop h.ok hnodup hfree hsmall hlarge
  · have hlow : b ≤ a := ha.1
    have hhigh : a < b + size := ha.2
    unfold poppedMem
    rw [store32_apply_of_not (by omega)]
    exact fill_apply_of_mem (by omega)

end Malloc

end OriginOS
