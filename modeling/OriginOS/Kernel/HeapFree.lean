import OriginOS.Kernel.HeapMalloc

/-! `sys_free` of a live allocation: a large arena is given back, a block goes on its free list, and
the last block of an arena takes the arena with it. -/

namespace OriginOS

open Lib Arenas

/-- After a call of `sys_free` with the pointer `p`: the heap is the one without that allocation,
and besides the arenas and the descriptors only the page tables, the pool and the range have
changed. -/
structure Frees (pf : PoolFlags) (g₀ : Frames) (s₀ : MemState) (g : Frames) (s : MemState)
    (A : Arenas)
    (live : List Alloc) (m : Nat → UInt8) (p : Nat) (t : MemState) (g' : Frames) (A' : Arenas)
    (m' : Nat → UInt8) : Prop where
  heap : Heap pf g₀ s₀ g' t A' (without live p) m'
  occupied : A'.Occupied (without live p)
  same : SameOwner s t
  lock : t.lock = s.lock
  others : ∀ x ∈ without live p, ∀ a, x.Has a → m' a = m a
  confined : Confined pf g s t
  outside : ∀ a, ¬ A.Covers (a / 4096) → (a < s.descs pf ∨ s.descs pf + 168 ≤ a) → m' a = m a
  frames : ∀ vp f, PageFrame g s vp f → ¬ A.Covers vp → PageFrame g' t vp f

section Free

variable {pf : PoolFlags} {g g₀ : Frames} {s s₀ : MemState} {A : Arenas} {live : List Alloc}
  {m : Nat → UInt8} {i vp b : Nat}

theorem Arenas.untouched_of_outside {descs a : Nat} (hcovers : ¬ A.Covers (a / 4096))
    (hdescs : a < descs ∨ descs + 168 ≤ a) (hi : i < 7) : A.Untouched descs live i a := by
  have hat : descAt descs i = descs + i * 24 := rfl
  refine ⟨by omega, fun hkind => absurd ⟨a / 4096, _, hkind, Nat.le_refl _, ?_⟩ hcovers⟩
  exact Nat.lt_succ_self _

theorem Arenas.Stored.removeLarge {descs : Nat} (h : A.Stored descs m) :
    (A.setKind vp none).Stored descs m := by
  refine ⟨h.desc, h.ends, h.list, fun vp' k hk => ?_⟩
  obtain ⟨-, hold⟩ := kind_of_remove hk
  exact (h.header vp' k hold).congr (fun _ _ => rfl) fun _ _ _ => rfl

theorem Heap.free_large (h : Heap pf g₀ s₀ g s A live m) (hocc : A.Occupied live) {n : Nat}
    (hkind : A.kind vp = some (.large n)) :
    ∃ t g' A', Mem.mfreePage pf (4096 * vp) n s = .ok ((), t) ∧
      Frees pf g₀ s₀ g s A live m (4096 * vp + 12) t g' A' m := by
  obtain ⟨g', t, hok, hsame, hlock, hflat, hpages, hbooked, hconfined, hframes⟩ :=
    h.pages.mfreePage_ok h.booked h.ok.toLayout h.flat hkind
  refine ⟨t, g', A.setKind vp none, hok, ⟨hpages, hbooked, hflat, ?_, ?_⟩, hocc.removeLarge, hsame,
    hlock, fun _ _ _ _ => rfl, hconfined, fun _ _ _ => rfl, hframes⟩
  · rw [hsame.descs]
    exact h.ok.removeLarge hkind
  · rw [hsame.descs]
    exact h.stored.removeLarge

/-! ### A block goes on its free list -/

/-- The memory after a block has been put on its free list, with `cnt` free blocks in its arena. -/
def pushedMem (m : Nat → UInt8) (descs i b cnt : Nat) : Nat → UInt8 :=
  store32 (insertBefore m (descAt descs i + 16) b) (4096 * (b / 4096) + 4) cnt

structure LiveBlock (A : Arenas) (live : List Alloc) (i b : Nat) : Prop where
  lt : i < 7
  block : A.Block i b
  mem : b ∈ ptrs live

theorem Heap.free_append (h : Heap pf g₀ s₀ g s A live m) (hb : LiveBlock A live i b) :
    ∀ z ∈ A.free i ++ [b], A.Block i z ∧ z ∉ ptrs (without live b) := by
  intro z hz
  rcases List.mem_append.mp hz with hz | hz
  · obtain ⟨hblock, hnot⟩ := h.free_block hb.lt hz
    exact ⟨hblock, fun hmem => hnot (mem_ptrs_without.mp hmem).1⟩
  · rw [List.mem_singleton.mp hz]
    exact ⟨hb.block, fun hmem => (mem_ptrs_without.mp hmem).2 rfl⟩

theorem Heap.nodes_apart (h : Heap pf g₀ s₀ g s A live m) (hb : LiveBlock A live i b) :
    ∀ z ∈ (descAt (s.descs pf) i + 8) :: (A.free i ++ [descAt (s.descs pf) i + 16]),
      NodesApart z b := by
  intro z hz
  have hi := hb.lt
  have hsize := sixteen_le_blockSize i
  have hdescs := hb.block.descs_apart h.ok.toLayout
  simp only [List.mem_cons, List.mem_append, List.not_mem_nil, or_false] at hz
  unfold NodesApart
  rcases hz with rfl | hz | rfl
  · simp only [descAt, Mem.descSize]
    omega
  · obtain ⟨hblock, hnot⟩ := h.free_block hi hz
    have hne : z ≠ b := fun heq => hnot (heq ▸ hb.mem)
    have hap := hblock.apart hb.block hne
    omega
  · simp only [descAt, Mem.descSize]
    omega

theorem Heap.pushedMem_apply (h : Heap pf g₀ s₀ g s A live m)
    (hb : LiveBlock A live i b) (cnt : Nat)
    {a : Nat} (ha : A.Untouched (s.descs pf) (without live b) i a) :
    pushedMem m (s.descs pf) i b cnt a = m a := by
  have hheader := ha.header hb.block.kind
  unfold pushedMem
  rw [store32_apply_of_not (by omega)]
  refine (h.stored.list i hb.lt).insertBefore_apply
    ((ha.offLinks (h.free_append hb)).mono fun z hz => ?_)
  simp only [List.mem_cons, List.mem_append, List.not_mem_nil, or_false] at hz ⊢
  tauto

theorem Heap.dlist_pushed (h : Heap pf g₀ s₀ g s A live m) (hb : LiveBlock A live i b) (cnt : Nat) :
    Dlist (pushedMem m (s.descs pf) i b cnt) (descAt (s.descs pf) i + 8) (A.free i ++ [b])
      (descAt (s.descs pf) i + 16) := by
  have hA := h.ok.toLayout
  have hi := hb.lt
  have hplace := hA.place _ _ hb.block.kind
  have hbounds := hb.block.bounds
  have hsize := sixteen_le_blockSize i
  simp only [ArenaKind.pages] at hplace
  refine ((h.stored.list i hi).insertBefore (h.nodes_apart hb) (by omega)).congr
    fun z hz a ha ha' => ?_
  -- no node is in the header
  have hoff : a < 4096 * (b / 4096) + 4 ∨ 4096 * (b / 4096) + 8 ≤ a := by
    simp only [List.mem_cons, List.mem_append, List.not_mem_nil, or_false] at hz
    rcases hz with rfl | (hz | rfl) | rfl
    · simp only [descAt, Mem.descSize] at ha ha'
      omega
    · have hap := (h.free_block hi hz).1.header_apart hA hb.block.kind
      omega
    · omega
    · simp only [descAt, Mem.descSize] at ha ha'
      omega
  exact store32_apply_of_not (by omega)

theorem Heap.header_pushed (h : Heap pf g₀ s₀ g s A live m) (hb : LiveBlock A live i b)
    (hkind : A.kind vp = some (.small i)) :
    Header (s.descs pf) (A.setFree i (A.free i ++ [b]))
      (pushedMem m (s.descs pf) i b (A.count (b / 4096) i + 1)) vp (.small i) := by
  have hA := h.ok.toLayout
  have hi := hb.lt
  have hcount : (A.setFree i (A.free i ++ [b])).count vp i =
      A.count vp i + if b / 4096 = vp then 1 else 0 := count_push
  have hload : ∀ off, off + 4 ≤ 12 →
      load32 (insertBefore m (descAt (s.descs pf) i + 16) b) (4096 * vp + off) =
        load32 m (4096 * vp + off) := by
    refine fun off hoff => load32_congr fun a ha ha' => (h.stored.list i hi).insertBefore_apply ?_
    refine (hA.offLinks_header (l := b :: A.free i) hkind hi (fun z hz => ?_) (by omega) (by omega))
    rcases List.mem_cons.mp hz with rfl | hz
    · exact hb.block
    · exact (h.free_block hi hz).1
  obtain ⟨hdesc, hcnt, hlarge⟩ := h.stored.header vp _ hkind
  have hdesc' := (hload 0 (by omega)).trans hdesc
  have hcnt' := (hload 4 (by omega)).trans hcnt
  have hlarge' := (hload 8 (by omega)).trans hlarge
  rw [Nat.add_zero] at hdesc'
  have hle := h.ok.count_le hi (h.free_nodup hi) (b / 4096)
  have hper : blocksPerArena i ≤ 4084 := Nat.div_le_self ..
  by_cases hvp : b / 4096 = vp
  · rw [if_pos hvp] at hcount
    rw [hvp] at hle
    unfold pushedMem
    rw [hvp]
    refine ⟨?_, ?_, ?_⟩
    · rw [load32_store32_of_disjoint (by omega)]
      exact hdesc'
    · rw [load32_store32_self (by omega), hcount]
    · rw [load32_store32_of_disjoint (by omega)]
      exact hlarge'
  · rw [if_neg hvp] at hcount
    have hother : ∀ off, off + 4 ≤ 12 →
        load32 (pushedMem m (s.descs pf) i b (A.count (b / 4096) i + 1)) (4096 * vp + off) =
          load32 (insertBefore m (descAt (s.descs pf) i + 16) b) (4096 * vp + off) :=
      fun off hoff => load32_store32_of_disjoint (by omega)
    refine ⟨(hother 0 (by omega)).trans hdesc', (hother 4 (by omega)).trans (hcnt'.trans ?_),
      (hother 8 (by omega)).trans hlarge'⟩
    omega

theorem Heap.pushed (h : Heap pf g₀ s₀ g s A live m) (hb : LiveBlock A live i b)
    {mem' : Nat → UInt8} (hflat : Flat g (s.setPhys mem')
      (pushedMem m (s.descs pf) i b (A.count (b / 4096) i + 1))) :
    Heap pf g₀ s₀ g (s.setPhys mem') (A.setFree i (A.free i ++ [b])) (without live b)
      (pushedMem m (s.descs pf) i b (A.count (b / 4096) i + 1)) := by
  have hsame := SameOwner.setPhys s mem'
  refine ⟨(h.pages.congr hsame).of_kind rfl, (h.booked.congr hsame rfl rfl).of_kind rfl,
    hflat, ?_, ?_⟩
  · rw [hsame.descs]
    exact h.ok.push hb.block hb.mem
  · rw [hsame.descs]
    refine h.stored.update (without live b) h.ok.toLayout hb.lt
      (fun j hj => free_setFree_of_ne hj _) (fun j hj _ c hc => (h.free_block hj hc).1)
      (fun _ _ hk _ => ⟨hk, hk⟩) ?_ (fun vp hk => h.header_pushed hb hk)
      fun a => h.pushedMem_apply hb _
    rw [free_setFree_self]
    exact h.dlist_pushed hb _

theorem Heap.does_push (h : Heap pf g₀ s₀ g s A live m) (hb : LiveBlock A live i b) :
    Does g s (do
      let desc ← Mem.loadWord (4096 * (b / 4096))
      Mem.listAppend (Mem.field desc 8) b
      let cnt ← Mem.loadWord (Mem.field (4096 * (b / 4096)) 4)
      Mem.storeWord (Mem.field (4096 * (b / 4096)) 4) ((cnt + 1) % 2 ^ 32)
      pure ((cnt + 1) % 2 ^ 32)) m (A.count (b / 4096) i + 1)
      (pushedMem m (s.descs pf) i b (A.count (b / 4096) i + 1)) := by
  have hA := h.ok.toLayout
  have hi := hb.lt
  have hkind := hb.block.kind
  have hbounds := hb.block.bounds
  have hsize := sixteen_le_blockSize i
  have hnodes := h.pages.listNodes hA hi fun z hz => (h.free_block hi hz).1
  have hend := (hnodes (descAt (s.descs pf) i + 16) (by simp)).bound
  have hplace := (hA.place _ _ hkind).1
  simp only [ArenaKind.pages] at hplace
  obtain ⟨hdesc, hcnt, -⟩ := h.stored.header _ _ hkind
  have hle := h.ok.count_le hi (h.free_nodup hi) (b / 4096)
  have hper : blocksPerArena i ≤ 4084 := Nat.div_le_self ..
  have hcnt' : load32 (insertBefore m (descAt (s.descs pf) i + 16) b) (4096 * (b / 4096) + 4) =
      A.count (b / 4096) i := by
    rw [← hcnt]
    refine load32_congr fun a ha ha' => (h.stored.list i hi).insertBefore_apply ?_
    refine hA.offLinks_header (l := b :: A.free i) hkind hi (fun z hz => ?_) (by omega) (by omega)
    rcases List.mem_cons.mp hz with rfl | hz
    · exact hb.block
    · exact (h.free_block hi hz).1
  have hword := h.pages.headerWord hA hkind (show 4 < 12 by omega) rfl
  refine (does_loadWord (h.pages.headerWord hA hkind (show 0 < 12 by omega) rfl)).bind ?_
  rw [Nat.add_zero, hdesc, Mem.field_eq (by omega), Mem.field_eq (by omega)]
  refine (does_listAppend (h.stored.list i hi) hnodes (h.pages.blockNode hA hb.block)).bind ?_
  refine (does_loadWord hword).bind ?_
  rw [hcnt', Nat.mod_eq_of_lt (by omega)]
  exact (does_storeWord hword _).bind (Does.pure _)

/-! ### The last block takes its arena with it -/

theorem Arenas.Block.mem_blocksOf_iff (h : A.Block i b) : b ∈ blocksOf vp i ↔ b / 4096 = vp := by
  constructor
  · intro hmem
    obtain ⟨idx, hidx, rfl⟩ := OriginOS.mem_blocksOf.mp hmem
    exact blockAt_div hidx
  · rintro rfl
    exact h.mem_blocksOf

theorem Heap.dead_of_full (h : Heap pf g₀ s₀ g s A live m) (hkind : A.kind vp = some (.small i))
    (hfull : A.count vp i = blocksPerArena i) : ∀ b ∈ ptrs live, b / 4096 ≠ vp := by
  have hi : i < 7 := h.ok.made vp _ hkind
  rintro b hb rfl
  obtain ⟨x, hx, rfl⟩ := mem_ptrs.mp hb
  have hblock : A.Block i x.ptr := by
    rcases h.ok.holds x hx with ⟨j, hj, -⟩ | ⟨vp', n, hk, hptr, -⟩
    · obtain rfl : j = i := by injection Option.some.inj (hj.kind.symm.trans hkind)
      exact hj
    · rw [show x.ptr / 4096 = vp' by omega, hk] at hkind
      exact nomatch Option.some.inj hkind
  exact ((h.ok.free i hi _).mp (h.ok.mem_free_of_full hi (h.free_nodup hi) hfull
    hblock.mem_blocksOf)).2 hb

theorem Heap.free_arena (h : Heap pf g₀ s₀ g s A live m) (hkind : A.kind vp = some (.small i))
    (hfull : A.count vp i = blocksPerArena i) :
    ∃ t g' m', (do Mem.sysFreeLoop (4096 * vp) (2 ^ 32) 0; Mem.mfreePage pf (4096 * vp) 1) s =
        .ok ((), t) ∧
      Heap pf g₀ s₀ g' t ((A.setKind vp none).setFree i
      ((A.free i).filter (· / 4096 ≠ vp))) live m' ∧
      SameOwner s t ∧ t.lock = s.lock ∧ Confined pf g s t ∧
      (∀ vp f, PageFrame g s vp f → ¬ A.Covers vp → PageFrame g' t vp f) ∧
      ∀ a, A.Untouched (s.descs pf) live i a → m' a = m a := by
  have hA := h.ok.toLayout
  have hi : i < 7 := hA.made vp _ hkind
  have hnodup := h.free_nodup hi
  have hblocks : ∀ z ∈ A.free i, A.Block i z ∧ z ∉ ptrs live := fun z hz => h.free_block hi hz
  have hper : blocksPerArena i ≤ 4084 := Nat.div_le_self ..
  have hview := h.pages.arenaView hA hkind (fun z hz => (hblocks z hz).1) hnodup
    (h.stored.header vp _ hkind).1 (h.stored.desc i hi)
  obtain ⟨m', hdoes, hlist, hmem⟩ := does_sysFreeLoop (Nat.zero_add _)
    (show blocksPerArena i < 2 ^ 32 by omega) hview (h.stored.list i hi)
    (fun b hb => h.ok.mem_free_of_full hi hnodup hfull (blocksFrom_zero vp i ▸ hb))
    (by rw [blocksFrom_zero]; exact blocksOf_nodup vp i)
  have hfilter : (A.free i).filter (· ∉ blocksFrom vp i 0 (blocksPerArena i)) =
      (A.free i).filter (· / 4096 ≠ vp) := by
    refine List.filter_congr fun c hc => ?_
    rw [blocksFrom_zero, decide_eq_decide, (hblocks c hc).1.mem_blocksOf_iff]
  rw [hfilter] at hlist
  obtain ⟨mem, hok, hflat, hoff⟩ := hdoes.run h.flat
  have hsame := SameOwner.setPhys s mem
  have hpages := h.pages.congr hsame
  have hbooked := h.booked.congr hsame rfl rfl
  obtain ⟨g', t, hfree, hsame', hlock, hflat', hpages', hbooked', hconfined, hframes⟩ :=
    hpages.mfreePage_ok hbooked (hsame.descs pf ▸ hA) hflat hkind
  have hframe : ∀ a, A.Untouched (s.descs pf) live i a → m' a = m a :=
    fun a ha => hmem a (ha.offLinks hblocks)
  have hdescs := (hsame.trans hsame').descs pf
  refine ⟨t, g', m', (bind_of_ok hok).trans hfree,
    ⟨hpages'.of_kind rfl, hbooked'.of_kind rfl, hflat',
    ?_, ?_⟩, hsame.trans hsame', hlock, (Confined.setPhys hoff).trans h.flat.inv hsame hconfined,
    hframes, hframe⟩
  · rw [hdescs]
    exact h.ok.removeSmall hkind (h.dead_of_full hkind hfull)
  · rw [hdescs]
    refine h.stored.update live hA hi (fun j hj => free_setFree_of_ne hj _)
      (fun j hj _ c hc => (h.free_block hj hc).1)
      (fun vp' k hk _ => ?_) ?_ (fun vp' hk => ?_) hframe
    · exact ⟨(kind_of_remove hk).2, (kind_of_remove hk).2⟩
    · rw [free_setFree_self]
      exact hlist
    · obtain ⟨hvp, hold⟩ := kind_of_remove hk
      refine (h.stored.header vp' _ hold).congr (fun j hj => ?_) fun a ha ha' => ?_
      · obtain rfl : i = j := by injection hj
        exact count_removeSmall hvp
      · exact hmem a (hA.offLinks_header hold hi (fun z hz => (hblocks z hz).1) ha ha')

theorem Heap.does_readBlocks (h : Heap pf g₀ s₀ g s A live m) (hi : i < 7) {vp : Nat}
    (hkind : A.kind vp = some (.small i)) :
    Does g s (do
      let desc ← Mem.loadWord (4096 * vp)
      Mem.loadWord (Mem.field desc 4)) m (blocksPerArena i) m := by
  have hbound := h.pages.descs.bound
  have hat : descAt (s.descs pf) i = s.descs pf + i * 24 := rfl
  refine (does_loadWord (h.pages.headerWord h.ok.toLayout hkind (show 0 < 12 by omega) rfl)).bind ?_
  rw [Nat.add_zero, (h.stored.header _ _ hkind).1,
    Mem.field_eq (by omega), ← (h.stored.desc i hi).2]
  exact does_loadWord (h.pages.descWord hi (by omega) rfl)

theorem Heap.sysFreeSmall_ok (h : Heap pf g₀ s₀ g s A live m) (hocc : A.Occupied live)
    (hb : LiveBlock A live i b) :
    ∃ t g' A' m', Mem.sysFreeSmall pf (4096 * (b / 4096)) b s = .ok ((), t) ∧
      Frees pf g₀ s₀ g s A live m b t g' A' m' := by
  have hi := hb.lt
  have hcount : (A.setFree i (A.free i ++ [b])).count (b / 4096) i = A.count (b / 4096) i + 1 := by
    rw [count_push, if_pos rfl]
  -- the block is on its list
  obtain ⟨mem, hok, hflat, hoff⟩ := (h.does_push hb).run h.flat
  have h₁ := h.pushed hb hflat
  have houtside : ∀ a, ¬ A.Covers (a / 4096) → (a < s.descs pf ∨ s.descs pf + 168 ≤ a) →
      pushedMem m (s.descs pf) i b (A.count (b / 4096) i + 1) a = m a :=
    fun a hcovers hdescs => h.pushedMem_apply hb _ (untouched_of_outside hcovers hdescs hi)
  have hothers : ∀ x ∈ without live b, ∀ a, x.Has a →
      pushedMem m (s.descs pf) i b (A.count (b / 4096) i + 1) a = m a := by
    intro x hx a ha
    have huntouched := h₁.ok.untouched_of_live hx ha.1 ha.2 hi
    rw [(SameOwner.setPhys s mem).descs] at huntouched
    exact h.pushedMem_apply hb _ ⟨huntouched.links, huntouched.page⟩
  generalize pushedMem m (s.descs pf) i b (A.count (b / 4096) i + 1) = m₁ at *
  have hkind : (A.setFree i (A.free i ++ [b])).kind (b / 4096) = some (.small i) := hb.block.kind
  obtain ⟨mem₂, hok₂, hflat₂, hoff₂⟩ := (h₁.does_readBlocks hi hkind).run hflat
  have h₂ := h₁.setPhys hflat₂ h₁.stored
  have hsame := (SameOwner.setPhys s mem).trans (SameOwner.setPhys (s.setPhys mem) mem₂)
  have hconfined : Confined pf g s ((s.setPhys mem).setPhys mem₂) :=
    (Confined.setPhys hoff).trans h.flat.inv (SameOwner.setPhys s mem) (Confined.setPhys hoff₂)
  obtain ⟨rest, hrest⟩ : ∃ rest : Nat → Mem Unit, rest = (fun cnt => do
      let desc ← Mem.loadWord (4096 * (b / 4096))
      let blocksPerArena ← Mem.loadWord (Mem.field desc 4)
      if cnt = blocksPerArena then
        Mem.sysFreeLoop (4096 * (b / 4096)) (2 ^ 32) 0
        Mem.mfreePage pf (4096 * (b / 4096)) 1) := ⟨_, rfl⟩
  have hlast : ∀ cnt, rest cnt (s.setPhys mem) = (if cnt = blocksPerArena i then do
      Mem.sysFreeLoop (4096 * (b / 4096)) (2 ^ 32) 0
      Mem.mfreePage pf (4096 * (b / 4096)) 1
    else pure ()) ((s.setPhys mem).setPhys mem₂) := by
    intro cnt
    rw [hrest]
    simp only
    rw [← bind_assoc]
    exact bind_of_ok hok₂
  have heq : Mem.sysFreeSmall pf (4096 * (b / 4096)) b s =
      rest (A.count (b / 4096) i + 1) (s.setPhys mem) := by
    rw [← bind_of_ok (f := rest) hok, hrest]
    unfold Mem.sysFreeSmall
    simp only [bind_assoc, pure_bind]
  rw [heq, hlast]
  split
  next hfull =>
    obtain ⟨t, g', m', hfree, hheap, hsame', hlock, hconfined', hframes, hmem⟩ :=
      h₂.free_arena hkind (hcount.trans hfull)
    rw [free_setFree_self] at hheap
    refine ⟨t, g', _, m', hfree, hheap, hocc.removeSmall hb.block, hsame.trans hsame', hlock,
      fun x hx a ha => (hmem a ?_).trans (hothers x hx a ha),
      hconfined.trans h.flat.inv hsame hconfined',
      fun a hcovers hdescs => (hmem a ?_).trans (houtside a hcovers hdescs), hframes⟩
    · exact h₂.ok.untouched_of_live hx ha.1 ha.2 hi
    · rw [← hsame.descs pf] at hdescs
      exact untouched_of_outside hcovers hdescs hi
  next hne =>
    exact ⟨_, g, _, m₁, rfl, h₂, hocc.push hb.block hne, hsame, rfl, hothers, hconfined, houtside,
      fun _ _ hf _ => hf⟩

theorem Heap.live_cases (h : Heap pf g₀ s₀ g s A live m) {p : Nat} (hp : p ∈ ptrs live) :
    (∃ i, LiveBlock A live i p) ∨
      ∃ n, A.kind (p / 4096) = some (.large n) ∧ p = 4096 * (p / 4096) + 12 := by
  obtain ⟨x, hx, rfl⟩ := mem_ptrs.mp hp
  rcases h.ok.holds x hx with ⟨i, hblock, -⟩ | ⟨vp, n, hkind, hptr, -⟩
  · exact .inl ⟨i, h.ok.made _ _ hblock.kind, hblock, hp⟩
  · have hvp : x.ptr / 4096 = vp := by omega
    rw [hvp]
    exact .inr ⟨n, hkind, hptr⟩

theorem Heap.load_header (h : Heap pf g₀ s₀ g s A live m) {k : ArenaKind}
    (hkind : A.kind vp = some k) {off : Nat} (hoff : off < 12) (hmod : off % 4 = 0) :
    ∃ mem, Mem.loadWord (4096 * vp + off) s = .ok (load32 m (4096 * vp + off), s.setPhys mem) ∧
      Heap pf g₀ s₀ g (s.setPhys mem) A live m ∧ Confined pf g s (s.setPhys mem) := by
  obtain ⟨mem, hok, hflat, hkept⟩ :=
    (does_loadWord (h.pages.headerWord h.ok.toLayout hkind hoff hmod)).run h.flat
  exact ⟨mem, hok, h.setPhys hflat h.stored, Confined.setPhys hkept⟩

theorem Frees.of_same {s' t : MemState} {g' : Frames} {A' : Arenas} {m' : Nat → UInt8} {p : Nat}
    (h : Frees pf g₀ s₀ g s' A live m p t g' A' m') (hinv : FrameInv g s) (hsame : SameOwner s s')
    (hlock : s'.lock = s.lock) (hconfined : Confined pf g s s') :
    Frees pf g₀ s₀ g s A live m p t g' A' m' :=
  ⟨h.heap, h.occupied, hsame.trans h.same, h.lock.trans hlock, h.others,
    hconfined.trans hinv hsame h.confined,
    fun a hcovers hdescs => h.outside a hcovers (by rwa [hsame.descs]),
    fun vp f hf => h.frames vp f ((PageFrame.congr hsame.running).mpr hf)⟩

theorem Heap.ensures_sysFreeArena (h : Heap pf g₀ s₀ g s A live m)
    (hocc : A.Occupied live) {p : Nat}
    (hp : p ∈ ptrs live) {E : Stop → Prop} {next : Mem Unit} {Q : Unit → MemState → Prop}
    (hnext : ∀ t g' A' m', Frees pf g₀ s₀ g s A live m p t g' A' m' → Ensures next E Q t) :
    Ensures (do
      let large ← Mem.loadWord (4096 * (p / 4096) + 8)
      Mem.assert (large = 0 ∨ large = 1)
        ⟨"./kernel/memory.c", 490, "sys_free", "a->large == 0 || a->large == 1"⟩
      let desc ← Mem.loadWord (4096 * (p / 4096))
      if desc = 0 ∧ large = 1 then
        let cnt ← Mem.loadWord (4096 * (p / 4096) + 4)
        Mem.mfreePage pf (4096 * (p / 4096)) cnt
        next
      else
        Mem.sysFreeSmall pf (4096 * (p / 4096)) p
        next) E Q s := by
  have hsame := fun t mem => SameOwner.setPhys t mem
  rcases h.live_cases hp with ⟨i, hb⟩ | ⟨n, hkind, hptr⟩
  · obtain ⟨hdesc, -, hlarge⟩ := h.stored.header _ _ hb.block.kind
    obtain ⟨mem₁, hok₁, h₁, hc₁⟩ := h.load_header hb.block.kind (show 8 < 12 by omega) rfl
    obtain ⟨mem₂, hok₂, h₂, hc₂⟩ := h₁.load_header hb.block.kind (show 0 < 12 by omega) rfl
    rw [hlarge] at hok₁
    obtain ⟨t, g', A', m', hok, hfrees⟩ := h₂.sysFreeSmall_ok hocc hb
    refine ensures_bind_of_ok hok₁ (ensures_bind_of_ok (Mem.assert_ok _ rfl)
      (ensures_bind_of_ok hok₂ ?_))
    rw [if_neg fun hc => absurd hc.2 (by decide)]
    exact ensures_bind_of_ok hok (hnext t g' A' m' (hfrees.of_same h.flat.inv
      ((hsame s _).trans (hsame _ _)) rfl (hc₁.trans h.flat.inv (hsame s _) hc₂)))
  · obtain ⟨hdesc, hcnt, hlarge⟩ := h.stored.header _ _ hkind
    obtain ⟨mem₁, hok₁, h₁, hc₁⟩ := h.load_header hkind (show 8 < 12 by omega) rfl
    obtain ⟨mem₂, hok₂, h₂, hc₂⟩ := h₁.load_header hkind (show 0 < 12 by omega) rfl
    obtain ⟨mem₃, hok₃, h₃, hc₃⟩ := h₂.load_header hkind (show 4 < 12 by omega) rfl
    rw [hlarge] at hok₁
    rw [Nat.add_zero, hdesc] at hok₂
    rw [hcnt] at hok₃
    obtain ⟨t, g', A', hok, hfrees⟩ := h₃.free_large hocc hkind
    rw [← hptr] at hfrees
    refine ensures_bind_of_ok hok₁ (ensures_bind_of_ok (Mem.assert_ok _ rfl)
      (ensures_bind_of_ok hok₂ ?_))
    rw [if_pos ⟨rfl, rfl⟩]
    have hsame₂ := (hsame s mem₁).trans (hsame _ mem₂)
    exact ensures_bind_of_ok hok₃ (ensures_bind_of_ok hok
      (hnext t g' A' m (hfrees.of_same h.flat.inv
      (hsame₂.trans (hsame _ mem₃)) rfl
      ((hc₁.trans h.flat.inv (hsame s _) hc₂).trans h.flat.inv hsame₂ hc₃))))

theorem Heap.firstPage_le (h : Heap pf g₀ s₀ g s A live m) {p : Nat} (hp : p ∈ ptrs live) :
    pf.firstPage ≤ p / 4096 ∧ p < 2 ^ 32 := by
  have hA := h.ok.toLayout
  rcases h.live_cases hp with ⟨i, hb⟩ | ⟨n, hkind, hptr⟩
  · have hplace := (hA.place _ _ hb.block.kind).1
    simp only [ArenaKind.pages] at hplace
    exact ⟨(h.pages.pages _ (covers_of_kind hA hb.block.kind)).1, by omega⟩
  · have hplace := (hA.place _ _ hkind).1
    have hmade := hA.made _ _ hkind
    simp only [ArenaKind.pages] at hplace
    refine ⟨(h.pages.pages _ (covers_of_kind hA hkind)).1, ?_⟩
    have hn : 0 < n := hmade.1
    omega

theorem Heap.ensures_sysFree (h : Heap pf g₀ s₀ g s A live m) (hocc : A.Occupied live)
    (hlock : s.lock pf = lockInit) {p : Nat} (hp : p ∈ ptrs live) {E : Stop → Prop} :
    Ensures (Mem.sysFree p) E (fun _ t => ∃ g' A' m',
    Frees pf g₀ s₀ g s A live m p t g' A' m') s := by
  obtain ⟨hfirst, hlt⟩ := h.firstPage_le hp
  have hp0 : p ≠ 0 := by
    rintro rfl
    have hpos : 0 < pf.firstPage := by cases pf <;> decide
    omega
  -- everything after the assertions
  have hlocked : Ensures (do
      Mem.lockAcquire pf
      let large ← Mem.loadWord (Mem.field (Mem.block2arena p) 8)
      Mem.assert (large = 0 ∨ large = 1)
        ⟨"./kernel/memory.c", 490, "sys_free", "a->large == 0 || a->large == 1"⟩
      let desc ← Mem.loadWord (Mem.block2arena p)
      if desc = 0 ∧ large = 1 then
        let cnt ← Mem.loadWord (Mem.field (Mem.block2arena p) 4)
        Mem.mfreePage pf (Mem.block2arena p) cnt
        Mem.lockRelease pf
      else
        Mem.sysFreeSmall pf (Mem.block2arena p) p
        Mem.lockRelease pf) E
      (fun _ t => ∃ g' A' m', Frees pf g₀ s₀ g s A live m p t g' A' m') s := by
    refine ensures_bind_of_ok (Mem.lockAcquire_ok hlock) ?_
    have hsame := SameOwner.setLock s pf ⟨0, some s.runningThread, 1⟩
    rw [block2arena_eq hlt, Mem.field_eq (by omega), Mem.field_eq (by omega)]
    refine (h.setLock pf ⟨0, some s.runningThread, 1⟩).ensures_sysFreeArena hocc hp
      fun t g' A' m' hfrees => ?_
    have hheld : t.lock pf = ⟨0, some t.runningThread, 1⟩ := by
      rw [hfrees.lock, hfrees.same.running]
      exact Function.update_self ..
    refine ensures_of_ok (Mem.lockRelease_ok hheld) ⟨g', A', m', hfrees.heap.setLock _ _,
      hfrees.occupied, (hsame.trans hfrees.same).trans (SameOwner.setLock _ _ _), ?_, hfrees.others,
      ((Confined.setLock s _ _).trans h.flat.inv hsame hfrees.confined).trans h.flat.inv
        (hsame.trans hfrees.same) (Confined.setLock t _ _),
      fun a hcovers hdescs => hfrees.outside a hcovers (by rwa [hsame.descs]), hfrees.frames⟩
    show Function.update t.lock pf lockInit = s.lock
    rw [hfrees.lock]
    show Function.update (Function.update s.lock pf _) pf lockInit = s.lock
    rw [Function.update_idem, ← hlock, Function.update_eq_self]
  refine ensures_bind_of_ok (Mem.assert_ok _ (decide_eq_true hp0)) ?_
  rw [if_pos hp0]
  refine Mem.ensures_read_bind ?_
  simp only [h.pages.uses.flag]
  split
  next hkernel =>
    have hge : kHeapStart ≤ p := by
      rw [h.pages.uses.mp hkernel] at hfirst
      have hpage : PoolFlags.kernel.firstPage * 4096 = kHeapStart := rfl
      omega
    exact ensures_bind_of_ok (Mem.assert_ok _ (decide_eq_true hge)) hlocked
  next => exact hlocked

end Free

end OriginOS
