import OriginOS.Kernel.HeapSteps

/-! `sys_malloc`: a new arena when a free list is empty, and the whole call. -/

namespace OriginOS

open Lib

section Malloc

variable {pf : PoolFlags} {g g₀ : Frames} {s s₀ : MemState} {A : Arenas} {live : List Alloc}
  {m : Nat → UInt8} {E : Stop → Prop} {size i : Nat}

/-- A heap whose free list `i` is not empty, so that `sys_malloc` can take a block off it. `m` are
the bytes at the start of the call. -/
structure Stocked (pf : PoolFlags) (g₀ : Frames) (s₀ s : MemState) (live : List Alloc)
    (m : Nat → UInt8) (i : Nat) (t : MemState) (g' : Frames) (A' : Arenas) (m' : Nat → UInt8) :
    Prop where
  heap : Heap pf g₀ s₀ g' t A' live m'
  same : SameOwner s t
  lock : t.lock = s.lock
  others : ∀ x ∈ live, ∀ a, x.Has a → m' a = m a
  first : ∃ b l, A'.free i = b :: l ∧ ∀ vp j, A'.kind vp = some (.small j) →
    A'.count vp j < blocksPerArena j ∨ j = i ∧ b / 4096 = vp
  large : ∀ vp n, A'.kind vp = some (.large n) → 4096 * vp + 12 ∈ ptrs live

theorem blocksPerArena_pos : ∀ i < 7, 0 < blocksPerArena i := by decide

/-- The memory of a new small arena before it is split. -/
def smallMem (m : Nat → UInt8) (descs vp i : Nat) : Nat → UInt8 :=
  headerMem (fill m (4096 * vp) pgSize 0) (4096 * vp) (descAt descs i) (blocksPerArena i) 0

theorem smallMem_apply {descs vp a : Nat} (h : a < 4096 * vp ∨ 4096 * (vp + 1) ≤ a) :
    smallMem m descs vp i a = m a := by
  unfold smallMem
  rw [headerMem_apply (by omega), fill_apply_of_not (by unfold pgSize; omega)]

section NewArena

variable {t : MemState} {g' : Frames} {m₁ : Nat → UInt8} {vp : Nat}

theorem Heap.load32_smallMem (h : Heap pf g₀ s₀ g s A live m) (m₁ : Nat → UInt8) (vp : Nat)
    (hi : i < 7) :
    load32 (smallMem m₁ (s.descs pf) vp i) (4096 * vp) = descAt (s.descs pf) i ∧
      load32 (smallMem m₁ (s.descs pf) vp i) (4096 * vp + 4) = blocksPerArena i ∧
      load32 (smallMem m₁ (s.descs pf) vp i) (4096 * vp + 8) = 0 := by
  have hbound := h.pages.descs.bound
  have hle : blocksPerArena i ≤ 4084 := Nat.div_le_self ..
  refine load32_headerMem ?_ (by omega) (by omega)
  simp only [descAt, Mem.descSize]
  omega

theorem Heap.does_newArena (h : Heap pf g₀ s₀ g s A live m) (hi : i < 7) (hempty : A.free i = [])
    (hnew : NewPages pf g₀ s₀ s t A m vp 1 g' m₁) :
    ∃ m', Does g' t (do
      Mem.memset (4096 * vp) 0 pgSize
      Mem.storeWord (4096 * vp) (descAt (s.descs pf) i)
      let cnt ← Mem.loadWord (Mem.field (descAt (s.descs pf) i) 4)
      Mem.storeWord (Mem.field (4096 * vp) 4) cnt
      Mem.storeWord (Mem.field (4096 * vp) 8) 0
      Mem.sysMallocSplit (descAt (s.descs pf) i) (4096 * vp) (2 ^ 32) 0
      pure true) m₁ true m' ∧
      Dlist m' (descAt (s.descs pf) i + 8) (blocksOf vp i) (descAt (s.descs pf) i + 16) ∧
      ∀ a, OffLinks (descAt (s.descs pf) i + 8) (blocksOf vp i) (descAt (s.descs pf) i + 16) a →
        m' a = smallMem m₁ (s.descs pf) vp i a := by
  have hA := h.ok.toLayout
  have hpages := (hnew.pages (.small i) rfl).1
  have hnone := hnew.run.kind_none hA Nat.one_pos
  have hB : (A.setKind vp (some (.small i))).Layout (s.descs pf) :=
    hA.add (k := .small i) hi hnew.run
  have hdescs := hnew.same.descs pf
  have hkind : (A.setKind vp (some (.small i))).kind vp = some (.small i) :=
    Arenas.kind_setKind_self _
  have hblocks : ∀ z ∈ blocksOf vp i, (A.setKind vp (some (.small i))).Block i z := fun z hz =>
    (Arenas.block_add_small hnone).mpr (.inr ⟨rfl, hz⟩)
  have hplace := hnew.run.place
  have hbound := h.pages.descs.bound
  have hpos := hnew.pos
  have hdesc : descAt (s.descs pf) i + 24 ≤ 2 ^ 32 := by
    simp only [descAt, Mem.descSize]
    omega
  have hword : ∀ off < 12, off % 4 = 0 → DataWord g' t (4096 * vp + off) :=
    fun off hoff hmod => hpages.headerWord hB hkind hoff hmod
  have hcntword : DataWord g' t (descAt (s.descs pf) i + 4) := by
    rw [← hdescs]
    exact hpages.descWord hi (by omega) rfl
  -- the descriptor is not in the new page
  have hapart : ∀ a, s.descs pf ≤ a → a < s.descs pf + 168 →
    smallMem m₁ (s.descs pf) vp i a = m a := by
    intro a ha ha'
    rw [smallMem_apply (by omega)]
    exact hnew.bytes a (by omega)
  have hdescword : ∀ off, off + 4 ≤ 24 →
      load32 (smallMem m₁ (s.descs pf) vp i) (descAt (s.descs pf) i + off) =
        load32 m (descAt (s.descs pf) i + off) := by
    intro off hoff
    refine load32_congr fun a ha ha' => hapart a ?_ ?_ <;>
      simp only [descAt, Mem.descSize] at ha ha' <;> omega
  have hlist : Dlist (smallMem m₁ (s.descs pf) vp i) (descAt (s.descs pf) i + 8) []
      (descAt (s.descs pf) i + 16) := by
    have hold := h.stored.list i hi
    rw [hempty] at hold
    refine hold.congr fun z hz a ha ha' => hapart a ?_ ?_ <;>
      simp only [List.nil_append, List.mem_cons, List.not_mem_nil, or_false] at hz <;>
      rcases hz with rfl | rfl <;> simp only [descAt, Mem.descSize] at ha ha' <;> omega
  have hheader := h.load32_smallMem m₁ vp hi
  have hview : ArenaView g' t (smallMem m₁ (s.descs pf) vp i) (descAt (s.descs pf) i) vp i
      ([] ++ blocksFrom vp i 0 (blocksPerArena i)) := by
    rw [List.nil_append, blocksFrom_zero]
    rw [← hdescs] at hB hheader ⊢
    refine hpages.arenaView hB hkind hblocks (blocksOf_nodup vp i) hheader.1 ?_
    rw [hdescs]
    exact ⟨(hdescword 0 (by omega)).trans (h.stored.desc i hi).1,
      (hdescword 4 (by omega)).trans (h.stored.desc i hi).2⟩
  obtain ⟨m', hsplit, hlist', hframe⟩ := does_sysMallocSplit (Nat.zero_add _)
    (show blocksPerArena i < 2 ^ 32 by
      have hle : blocksPerArena i ≤ 4084 := Nat.div_le_self ..
      omega) hview hlist
  rw [List.nil_append, blocksFrom_zero] at hlist' hframe
  have hcnt : load32 (store32 (fill m₁ (4096 * vp) pgSize 0) (4096 * vp) (descAt (s.descs pf) i))
      (descAt (s.descs pf) i + 4) = blocksPerArena i := by
    rw [← (h.stored.desc i hi).2]
    refine load32_congr fun a ha ha' => ?_
    simp only [descAt, Mem.descSize] at ha ha'
    rw [store32_apply_of_not (by omega), fill_apply_of_not (by unfold pgSize; omega)]
    exact hnew.bytes a (by omega)
  refine ⟨m', ?_, hlist', hframe⟩
  rw [Mem.field_eq (by omega), Mem.field_eq (by omega), Mem.field_eq (by omega)]
  refine (does_memset 0 _ (by omega) fun b hb hb' => ?_).bind ?_
  · exact hnew.dataPage hA (.small i) rfl hb (by unfold pgSize at hb'; omega)
  refine (does_storeWord (show DataWord g' t (4096 * vp) from hword 0 (by omega) rfl) _).bind
    ((does_loadWord hcntword).bind ?_)
  rw [hcnt]
  refine (does_storeWord (hword 4 (by omega) rfl) _).bind ?_
  exact (does_storeWord (hword 8 (by omega) rfl) _).bind (hsplit.bind (Does.pure true))

theorem Heap.newArena_blocks (h : Heap pf g₀ s₀ g s A live m)
    (hnew : NewPages pf g₀ s₀ s t A m vp 1 g' m₁) (z : Nat) (hz : z ∈ blocksOf vp i) :
    (A.setKind vp (some (.small i))).Block i z ∧ z ∉ ptrs live := by
  have hnone := hnew.run.kind_none h.ok.toLayout Nat.one_pos
  refine ⟨(Arenas.block_add_small hnone).mpr (.inr ⟨rfl, hz⟩), fun hlive => ?_⟩
  obtain ⟨idx, hidx, rfl⟩ := mem_blocksOf.mp hz
  refine h.ok.kind_of_ptr hlive ?_
  rw [blockAt_div hidx]
  exact hnone

theorem newArena_count (hempty : A.free i = []) (vp' : Nat) :
    ((A.setKind vp (some (.small i))).setFree i (A.free i ++ blocksOf vp i)).count vp' i =
      if vp = vp' then blocksPerArena i else 0 := by
  rw [Arenas.count_addSmall]
  unfold Arenas.count
  rw [hempty, List.countP_nil, Nat.zero_add]

section Split

variable {m' : Nat → UInt8}

theorem Heap.newArena_apply (h : Heap pf g₀ s₀ g s A live m)
    (hnew : NewPages pf g₀ s₀ s t A m vp 1 g' m₁)
    (hmem : ∀ a,
      OffLinks (descAt (s.descs pf) i + 8) (blocksOf vp i) (descAt (s.descs pf) i + 16) a →
      m' a = smallMem m₁ (s.descs pf) vp i a)
    (a : Nat) (ha : (A.setKind vp (some (.small i))).Untouched (s.descs pf) live i a) :
    m' a = m a := by
  have hnone := hnew.run.kind_none h.ok.toLayout Nat.one_pos
  have hpage : a < 4096 * vp ∨ 4096 * (vp + 1) ≤ a := by
    by_contra hin
    have hdiv : a / 4096 = vp := by omega
    obtain ⟨c, hc, hblock, hlow, hhigh⟩ := ha.page (hdiv ▸ Arenas.kind_setKind_self _)
    have hbounds := hblock.bounds
    refine h.ok.kind_of_ptr hc ?_
    rw [show c / 4096 = vp by omega]
    exact hnone
  rw [hmem a (ha.offLinks (h.newArena_blocks hnew)), smallMem_apply hpage]
  exact hnew.bytes a hpage

theorem Heap.newArena_header (h : Heap pf g₀ s₀ g s A live m) (hi : i < 7) (hempty : A.free i = [])
    (hnew : NewPages pf g₀ s₀ s t A m vp 1 g' m₁)
    (hmem : ∀ a,
      OffLinks (descAt (s.descs pf) i + 8) (blocksOf vp i) (descAt (s.descs pf) i + 16) a →
      m' a = smallMem m₁ (s.descs pf) vp i a)
    (vp' : Nat) (hk : (A.setKind vp (some (.small i))).kind vp' = some (.small i)) :
    Arenas.Header (s.descs pf)
      ((A.setKind vp (some (.small i))).setFree i (A.free i ++ blocksOf vp i)) m' vp'
        (.small i) := by
  have hB : (A.setKind vp (some (.small i))).Layout (s.descs pf) :=
    h.ok.toLayout.add (k := .small i) hi hnew.run
  have hoff : ∀ a, 4096 * vp' ≤ a → a < 4096 * vp' + 12 →
      m' a = smallMem m₁ (s.descs pf) vp i a := fun a ha ha' =>
    hmem a (hB.offLinks_header hk hi (fun z hz => (h.newArena_blocks hnew z hz).1) ha ha')
  by_cases hvp : vp' = vp
  · subst hvp
    have hload : ∀ off, off + 4 ≤ 12 → load32 m' (4096 * vp' + off) =
        load32 (smallMem m₁ (s.descs pf) vp' i) (4096 * vp' + off) :=
      fun off hoff' => load32_congr fun a ha ha' => hoff a (by omega) (by omega)
    have hheader := h.load32_smallMem m₁ vp' hi
    refine ⟨(hload 0 (by omega)).trans hheader.1, (hload 4 (by omega)).trans ?_,
      (hload 8 (by omega)).trans hheader.2.2⟩
    rw [hheader.2.1, newArena_count hempty, if_pos rfl]
  · have hold : A.kind vp' = some (.small i) := (Arenas.kind_setKind_of_ne hvp _).symm.trans hk
    refine (h.stored.header vp' _ hold).congr (fun j hj => ?_) fun a ha ha' => ?_
    · obtain rfl : i = j := by injection hj
      rw [newArena_count hempty, if_neg (Ne.symm hvp)]
      unfold Arenas.count
      rw [hempty, List.countP_nil]
    · rw [hoff a ha ha', smallMem_apply (by omega)]
      exact hnew.bytes a (by omega)

theorem Heap.newArena_stored (h : Heap pf g₀ s₀ g s A live m) (hi : i < 7) (hempty : A.free i = [])
    (hnew : NewPages pf g₀ s₀ s t A m vp 1 g' m₁)
    (hlist : Dlist m' (descAt (s.descs pf) i + 8) (blocksOf vp i) (descAt (s.descs pf) i + 16))
    (hmem : ∀ a,
      OffLinks (descAt (s.descs pf) i + 8) (blocksOf vp i) (descAt (s.descs pf) i + 16) a →
      m' a = smallMem m₁ (s.descs pf) vp i a) :
    ((A.setKind vp (some (.small i))).setFree i (A.free i ++ blocksOf vp i)).Stored
      (s.descs pf) m' := by
  have hA := h.ok.toLayout
  have hnone := hnew.run.kind_none hA Nat.one_pos
  refine h.stored.update live (hA.add (k := .small i) hi hnew.run) hi
    (fun j hj => Arenas.free_setFree_of_ne hj _)
    (fun j hj _ c hc => (h.free_block hj hc).1.add hnone _)
    (fun vp' k hk hne => ⟨(Arenas.kind_of_add hk hne).2, hk⟩) ?_
    (h.newArena_header hi hempty hnew hmem) (h.newArena_apply hnew hmem)
  rw [Arenas.free_setFree_self, hempty]
  exact hlist

/-- The first block on the free list is in the new arena, and the other arenas are not all free. -/
theorem newArena_first (hocc : A.Occupied live) (hi : i < 7) (hempty : A.free i = []) {A' : Arenas}
    (hA' : A' = (A.setKind vp (some (.small i))).setFree i (A.free i ++ blocksOf vp i)) :
    ∃ b l, A'.free i = b :: l ∧ ∀ vp' j, A'.kind vp' = some (.small j) →
      A'.count vp' j < blocksPerArena j ∨ j = i ∧ b / 4096 = vp' := by
  subst hA'
  obtain ⟨b, l, hbl⟩ := List.exists_cons_of_length_pos (l := blocksOf vp i)
    (by rw [length_blocksOf]; exact blocksPerArena_pos i hi)
  have hb : b / 4096 = vp := by
    obtain ⟨idx, hidx, rfl⟩ := mem_blocksOf.mp (hbl ▸ List.mem_cons_self : b ∈ blocksOf vp i)
    exact blockAt_div hidx
  refine ⟨b, l, by rw [Arenas.free_setFree_self, hempty, List.nil_append, hbl], fun vp' j hk => ?_⟩
  by_cases hji : j = i
  · subst hji
    rw [newArena_count hempty]
    split
    · next hvp => exact .inr ⟨rfl, hb.trans hvp⟩
    · exact .inl (blocksPerArena_pos j hi)
  · have hold := (Arenas.kind_of_add hk fun heq => hji (by injection heq)).2
    rw [Arenas.count_setFree_of_ne hji, Arenas.count_setKind]
    exact .inl (hocc.small vp' j hold)

theorem Heap.stocked (h : Heap pf g₀ s₀ g s A live m) (hocc : A.Occupied live) (hi : i < 7)
    (hempty : A.free i = []) (hnew : NewPages pf g₀ s₀ s t A m vp 1 g' m₁) {mem' : Nat → UInt8}
    (hflat : Flat g' (t.setPhys mem') m')
    (hlist : Dlist m' (descAt (s.descs pf) i + 8) (blocksOf vp i) (descAt (s.descs pf) i + 16))
    (hmem : ∀ a,
      OffLinks (descAt (s.descs pf) i + 8) (blocksOf vp i) (descAt (s.descs pf) i + 16) a →
      m' a = smallMem m₁ (s.descs pf) vp i a) :
    Stocked pf g₀ s₀ s live m i (t.setPhys mem') g'
      ((A.setKind vp (some (.small i))).setFree i (A.free i ++ blocksOf vp i)) m' := by
  have hsame := hnew.same.trans (SameOwner.setPhys t mem')
  have hok := h.ok.addSmall hi hnew.run
  refine ⟨⟨?_, ?_, hflat, ?_, ?_⟩, hsame, hnew.lock, fun x hx a ha => ?_,
    newArena_first hocc hi hempty rfl, fun vp' n hk => ?_⟩
  · exact ((hnew.pages (.small i) rfl).1.congr (SameOwner.setPhys t mem')).of_kind rfl
  · exact ((hnew.pages (.small i) rfl).2.congr (SameOwner.setPhys t mem') rfl rfl).of_kind rfl
  · rw [hsame.descs]
    exact hok
  · rw [hsame.descs]
    exact h.newArena_stored hi hempty hnew hlist hmem
  · have hun := hok.untouched_of_live hx ha.1 ha.2 hi
    exact h.newArena_apply hnew hmem a ⟨hun.links, hun.page⟩
  · exact hocc.large vp' n (Arenas.kind_of_add hk nofun).2

end Split

end NewArena

theorem Heap.setPhys {mem m' : Nat → UInt8} (h : Heap pf g₀ s₀ g s A live m)
    (hflat : Flat g (s.setPhys mem) m') (hstored : A.Stored (s.descs pf) m') :
    Heap pf g₀ s₀ g (s.setPhys mem) A live m' := by
  have hsame := SameOwner.setPhys s mem
  refine ⟨h.pages.congr hsame, h.booked.congr hsame rfl rfl, hflat, ?_, ?_⟩
  · rw [hsame.descs]
    exact h.ok
  · rw [hsame.descs]
    exact hstored

theorem Heap.ensures_sysMallocArena (h : Heap pf g₀ s₀ g s A live m) (hocc : A.Occupied live)
    (hE : Tolerates E) (hi : i < 7) :
    Ensures (Mem.sysMallocArena pf (descAt (s.descs pf) i)) E (fun found t =>
      SameOwner s t ∧ t.lock = s.lock ∧ ((found = false ∧ Heap pf g₀ s₀ g t A live m) ∨
        found = true ∧ ∃ g' A' m', Stocked pf g₀ s₀ s live m i t g' A' m')) s := by
  have hA := h.ok.toLayout
  have hbound := h.pages.descs.bound
  have hdesc : descAt (s.descs pf) i + 24 ≤ 2 ^ 32 := by
    simp only [descAt, Mem.descSize]
    omega
  have hnodes := h.pages.listNodes hA hi (l := []) (by simp)
  obtain ⟨mem, hok, hflat⟩ := (does_listEmpty (h.stored.list i hi) (hnodes _ (by simp))
    (hnodes _ (by simp))).ok h.flat
  have hsame := SameOwner.setPhys s mem
  have h' := h.setPhys hflat h.stored
  unfold Mem.sysMallocArena
  rw [Mem.field_eq (by omega)]
  refine ensures_bind_of_ok hok ?_
  by_cases hempty : A.free i = []
  · rw [decide_eq_true hempty, if_pos rfl]
    refine (h'.pages.ensures_mallocPage h'.booked h'.ok.toLayout hflat hE 1).bind fun v t hv => ?_
    rcases hv with ⟨rfl, rfl⟩ | ⟨vp, g', m₁, rfl, hnew⟩
    · rw [if_pos rfl]
      exact ensures_pure ⟨hsame, rfl, .inl ⟨rfl, h'⟩⟩
    · have hpos := hnew.pos
      rw [if_neg (by omega)]
      obtain ⟨m', hdoes, hlist, hmem⟩ := h'.does_newArena hi hempty hnew
      obtain ⟨mem', hok', hflat'⟩ := hdoes.ok hnew.flat
      have hst := h'.stocked hocc hi hempty hnew hflat' hlist hmem
      rw [hsame.descs] at hok'
      exact ensures_of_ok hok' ⟨hsame.trans hst.same, hst.lock, .inr ⟨rfl, g', _, m', hst.heap,
        hsame.trans hst.same, hst.lock, hst.others, hst.first, hst.large⟩⟩
  · rw [decide_eq_false hempty, if_neg Bool.false_ne_true]
    refine ensures_pure ⟨hsame, rfl, .inr ⟨rfl, g, A, m, h', hsame, rfl, fun _ _ _ _ => rfl, ?_,
      hocc.large⟩⟩
    obtain ⟨b, l, hbl⟩ := List.exists_cons_of_ne_nil hempty
    exact ⟨b, l, hbl, fun vp j hk => .inl (hocc.small vp j hk)⟩

theorem Heap.ensures_sysMallocSmall (h : Heap pf g₀ s₀ g s A live m) (hocc : A.Occupied live)
    (hE : Tolerates E) (hsize : size ≤ 1024) :
    Ensures (Mem.sysMallocSmall pf (s.descs pf) size) E
      (fun p t => ∃ g' A' m', Mallocs pf g₀ s₀ s live m size p t g' A' m') s := by
  obtain ⟨i, hi, hfit, -, hdoes⟩ := does_sysMallocDesc h.stored h.pages hsize 6 rfl
  obtain ⟨mem, hok, hflat⟩ := hdoes.ok h.flat
  have hsame := SameOwner.setPhys s mem
  have h' := h.setPhys hflat h.stored
  refine ensures_bind_of_ok hok ?_
  have hdescs := hsame.descs pf
  rw [show s.descs pf + i * Mem.descSize = descAt ((s.setPhys mem).descs pf) i by rw [hdescs]; rfl]
  refine (h'.ensures_sysMallocArena hocc hE hi).bind fun found t ht => ?_
  obtain ⟨hsame', hlock, ⟨rfl, hheap⟩ | ⟨rfl, g', A', m', hst⟩⟩ := ht
  · rw [if_neg Bool.false_ne_true]
    exact ensures_pure ⟨g, A, m, hheap, hocc, hsame.trans hsame', hlock, fun _ _ _ _ => rfl,
      fun hne => absurd rfl hne⟩
  · rw [if_pos rfl, ← hsame'.descs]
    obtain ⟨b, l, hbl, hsmall⟩ := hst.first
    refine (hst.heap.popped hi hbl hfit hsmall hst.large).mono fun p u hu => ?_
    obtain ⟨g'', A'', m'', hmal⟩ := hu
    refine ⟨g'', A'', m'', hmal.heap, hmal.occupied, (hsame.trans hsame').trans hmal.same,
      hmal.lock.trans hlock, fun x hx a ha => ?_, hmal.zero⟩
    exact (hmal.others x hx a ha).trans (hst.others x hx a ha)

theorem Heap.setLock (h : Heap pf g₀ s₀ g s A live m) (q : PoolFlags) (l : Lock) :
    Heap pf g₀ s₀ g (s.setLock q l) A live m := by
  have hsame := SameOwner.setLock s q l
  refine ⟨h.pages.congr hsame, h.booked.congr hsame rfl rfl,
    h.flat.congr (h.flat.inv.setLock q l) rfl rfl,
    ?_, ?_⟩
  · rw [hsame.descs]
    exact h.ok
  · rw [hsame.descs]
    exact h.stored

theorem MemState.Uses.flag (h : s.Uses pf) :
    (if (s.task s.runningThread).pgdir = 0 then PoolFlags.kernel else .user) = pf := by
  cases pf with
  | kernel => exact if_pos (h.mpr rfl)
  | user => exact if_neg fun hzero => nomatch h.mp hzero

theorem MemState.Uses.descs (h : s.Uses pf) : (if (s.task s.runningThread).pgdir = 0 then
    s.kBlockDescs else (s.task s.runningThread).uBlockDescs) = s.descs pf := by
  cases pf with
  | kernel => exact if_pos (h.mpr rfl)
  | user => exact if_neg fun hzero => nomatch h.mp hzero

theorem Heap.ensures_sysMalloc (h : Heap pf g₀ s₀ g s A live m) (hocc : A.Occupied live)
    (hlock : s.lock pf = lockInit) (hE : Tolerates E) (size : Nat) :
    Ensures (Mem.sysMalloc size) E
      (fun p t => ∃ g' A' m', Mallocs pf g₀ s₀ s live m size p t g' A' m') s := by
  refine Mem.ensures_read_bind ?_
  simp only [h.pages.uses.flag, h.pages.uses.descs]
  split
  · exact ensures_pure ⟨g, A, m, h.mallocs_null hocc size⟩
  · refine ensures_bind_of_ok (Mem.lockAcquire_ok hlock) ?_
    set s₁ := s.setLock pf ⟨0, some s.runningThread, 1⟩ with hs₁
    have h₁ := h.setLock pf ⟨0, some s.runningThread, 1⟩
    have hsame := SameOwner.setLock s pf ⟨0, some s.runningThread, 1⟩
    -- both branches end with the release of the lock
    have hrelease : ∀ p t, (∃ g' A' m', Mallocs pf g₀ s₀ s₁ live m size p t g' A' m') →
        Ensures (do Mem.lockRelease pf; pure p) E
          (fun p t => ∃ g' A' m', Mallocs pf g₀ s₀ s live m size p t g' A' m') t := by
      rintro p t ⟨g', A', m', hmal⟩
      have hheld : t.lock pf = ⟨0, some t.runningThread, 1⟩ := by
        rw [hmal.lock, hmal.same.running]
        exact Function.update_self ..
      refine ensures_bind_of_ok (Mem.lockRelease_ok hheld) (ensures_pure ⟨g', A', m', ?_⟩)
      refine ⟨hmal.heap.setLock _ _, hmal.occupied,
        (hsame.trans hmal.same).trans (SameOwner.setLock _ _ _), ?_, hmal.others, hmal.zero⟩
      show Function.update t.lock pf lockInit = s.lock
      rw [hmal.lock]
      show Function.update (Function.update s.lock pf _) pf lockInit = s.lock
      rw [Function.update_idem, ← hlock, Function.update_eq_self]
    split
    · refine (h₁.ensures_sysMallocLarge hocc size fun e he => ?_).bind hrelease
      exact (h₁.pages.ensures_mallocPage h₁.booked h₁.ok.toLayout h₁.flat hE _).error he
    · rw [← hsame.descs]
      exact (h₁.ensures_sysMallocSmall hocc hE (by omega)).bind hrelease

end Malloc

end OriginOS
