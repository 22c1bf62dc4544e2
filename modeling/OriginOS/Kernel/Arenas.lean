import OriginOS.Kernel.Heap
import OriginOS.Lib.Dlist

/-! The arenas of a heap: which pages are arenas, which blocks of the small ones are on the free
lists, and how the memory shows both. Nothing here runs code; the functions of `kernel/memory.c` are
met in `HeapSteps`. -/

namespace OriginOS

open Lib

def blockSize (i : Nat) : Nat := 16 * 2 ^ i

def blocksPerArena (i : Nat) : Nat := (pgSize - Mem.arenaSize) / blockSize i

def descAt (descs i : Nat) : Nat := descs + i * Mem.descSize

def blockAt (vp i idx : Nat) : Nat := 4096 * vp + 12 + idx * blockSize i

def blocksOf (vp i : Nat) : List Nat := (List.range (blocksPerArena i)).map (blockAt vp i)

theorem sixteen_le_blockSize (i : Nat) : 16 ≤ blockSize i :=
  Nat.le_mul_of_pos_right 16 (Nat.two_pow_pos i)

section Blocks

variable {vp i idx idx' b : Nat}

theorem blockAt_succ (vp i idx : Nat) :
    blockAt vp i (idx + 1) = blockAt vp i idx + blockSize i := by
  have hmul := Nat.succ_mul idx (blockSize i)
  simp only [blockAt, Nat.succ_eq_add_one] at hmul ⊢
  omega

theorem blockAt_mono (h : idx ≤ idx') : blockAt vp i idx ≤ blockAt vp i idx' :=
  Nat.add_le_add_left (Nat.mul_le_mul_right _ h) _

theorem le_blockAt (vp i idx : Nat) : 4096 * vp + 12 ≤ blockAt vp i idx := Nat.le_add_right ..

theorem blockAt_end (h : idx < blocksPerArena i) :
    blockAt vp i idx + blockSize i ≤ 4096 * (vp + 1) := by
  have hmul : (idx + 1) * blockSize i ≤ 4084 := Nat.mul_le_of_le_div _ _ _ h
  rw [← blockAt_succ]
  unfold blockAt
  omega

theorem blockAt_div (h : idx < blocksPerArena i) : blockAt vp i idx / 4096 = vp := by
  have hend : blockAt vp i idx + blockSize i ≤ 4096 * (vp + 1) := blockAt_end h
  have hle := le_blockAt vp i idx
  have hsize := sixteen_le_blockSize i
  omega

theorem blockAt_lt (h : idx < idx') : blockAt vp i idx + blockSize i ≤ blockAt vp i idx' := by
  rw [← blockAt_succ]
  exact blockAt_mono h

theorem blockAt_apart (h : blockAt vp i idx ≠ blockAt vp i idx') :
    blockAt vp i idx + blockSize i ≤ blockAt vp i idx' ∨
      blockAt vp i idx' + blockSize i ≤ blockAt vp i idx := by
  rcases Nat.lt_trichotomy idx idx' with hlt | heq | hgt
  · exact .inl (blockAt_lt hlt)
  · exact absurd (congrArg _ heq) h
  · exact .inr (blockAt_lt hgt)

theorem blockAt_mod (vp i idx : Nat) : blockAt vp i idx % 4 = 0 := by
  have hmul : idx * blockSize i = 16 * (idx * 2 ^ i) := Nat.mul_left_comm ..
  unfold blockAt
  omega

theorem mem_blocksOf : b ∈ blocksOf vp i ↔ ∃ idx < blocksPerArena i, b = blockAt vp i idx := by
  simp [blocksOf, eq_comm]

theorem length_blocksOf (vp i : Nat) : (blocksOf vp i).length = blocksPerArena i := by
  simp [blocksOf]

theorem blocksOf_pairwise (vp i : Nat) :
    (blocksOf vp i).Pairwise fun b b' => b + blockSize i ≤ b' :=
  List.pairwise_lt_range.map _ fun _ _ hlt => blockAt_lt hlt

theorem blocksOf_nodup (vp i : Nat) : (blocksOf vp i).Nodup := by
  refine (blocksOf_pairwise vp i).imp fun {b b'} h => ?_
  have hsize := sixteen_le_blockSize i
  omega

end Blocks

/-- A small arena has the blocks of a descriptor, a large one is a run of pages. -/
inductive ArenaKind where
  | small (i : Nat)
  | large (n : Nat)
deriving DecidableEq, Repr

namespace ArenaKind

def pages : ArenaKind → Nat
  | small _ => 1
  | large n => n

def Made : ArenaKind → Prop
  | small i => i < 7
  | large n => 0 < n ∧ n < 2 ^ 32

theorem pages_pos {k : ArenaKind} (h : k.Made) : 0 < k.pages := by
  cases k with
  | small i => exact Nat.one_pos
  | large n => exact h.1

end ArenaKind

/-- The arenas by their first page, and the free lists by descriptor. -/
structure Arenas where
  kind : Nat → Option ArenaKind
  free : Nat → List Nat

structure Alloc where
  ptr : Nat
  size : Nat
deriving DecidableEq, Repr

def ptrs (live : List Alloc) : List Nat := live.map Alloc.ptr

namespace Arenas

def Block (A : Arenas) (i b : Nat) : Prop :=
  ∃ vp, A.kind vp = some (.small i) ∧ ∃ idx < blocksPerArena i, b = blockAt vp i idx

/-- An allocation fits into its block, or into its large arena behind the header. -/
def Holds (A : Arenas) (x : Alloc) : Prop :=
  (∃ i, A.Block i x.ptr ∧ x.size ≤ blockSize i) ∨
    ∃ vp n, A.kind vp = some (.large n) ∧ x.ptr = 4096 * vp + 12 ∧ x.size + 12 ≤ 4096 * n

/-- The number of blocks of the arena in the page `vp` on the free list. -/
def count (A : Arenas) (vp i : Nat) : Nat := (A.free i).countP fun b => b / 4096 = vp

/-- The arenas are apart from each other and from the descriptors. -/
structure Layout (descs : Nat) (A : Arenas) : Prop where
  made : ∀ vp k, A.kind vp = some k → k.Made
  place : ∀ vp k, A.kind vp = some k → 4096 * (vp + k.pages) ≤ 2 ^ 32 ∧
    (4096 * (vp + k.pages) ≤ descs ∨ descs + 168 ≤ 4096 * vp)
  apart : ∀ vp vp' k k', A.kind vp = some k → A.kind vp' = some k' → vp ≠ vp' →
    vp + k.pages ≤ vp' ∨ vp' + k'.pages ≤ vp

/-- A free list holds the blocks that are not live, and every live allocation is in an arena. -/
structure Ok (descs : Nat) (A : Arenas) (live : List Alloc) : Prop extends Layout descs A where
  free : ∀ i < 7, ∀ b, b ∈ A.free i ↔ A.Block i b ∧ b ∉ ptrs live
  holds : ∀ x ∈ live, A.Holds x
  nodup : (ptrs live).Nodup

structure Occupied (A : Arenas) (live : List Alloc) : Prop where
  small : ∀ vp i, A.kind vp = some (.small i) → A.count vp i < blocksPerArena i
  large : ∀ vp n, A.kind vp = some (.large n) → 4096 * vp + 12 ∈ ptrs live

def Header (descs : Nat) (A : Arenas) (m : Nat → UInt8) (vp : Nat) : ArenaKind → Prop
  | .small i => load32 m (4096 * vp) = descAt descs i ∧ load32 m (4096 * vp + 4) = A.count vp i ∧
    load32 m (4096 * vp + 8) = 0
  | .large n => load32 m (4096 * vp) = 0 ∧ load32 m (4096 * vp + 4) = n ∧
    load32 m (4096 * vp + 8) = 1

/-- The memory shows the arenas: the descriptors, the free lists and the headers. -/
structure Stored (descs : Nat) (A : Arenas) (m : Nat → UInt8) : Prop where
  desc : ∀ i < 7, load32 m (descAt descs i) = blockSize i ∧
    load32 m (descAt descs i + 4) = blocksPerArena i
  ends : ∀ i < 7, load32 m (descAt descs i + 8) = 0 ∧ load32 m (descAt descs i + 20) = 0
  list : ∀ i < 7, Dlist m (descAt descs i + 8) (A.free i) (descAt descs i + 16)
  header : ∀ vp k, A.kind vp = some k → Header descs A m vp k

def setKind (A : Arenas) (vp : Nat) (k : Option ArenaKind) : Arenas :=
  { A with kind := Function.update A.kind vp k }

def setFree (A : Arenas) (i : Nat) (l : List Nat) : Arenas :=
  { A with free := Function.update A.free i l }

/-- An address that a call on the descriptor `i` leaves alone: it is in no link word of the
descriptor, and in the pages of its arenas it is in a live block. -/
structure Untouched (descs : Nat) (A : Arenas) (live : List Alloc) (i a : Nat) : Prop where
  links : a < descAt descs i + 12 ∨ descAt descs i + 20 ≤ a
  page : A.kind (a / 4096) = some (.small i) →
    ∃ b ∈ ptrs live, A.Block i b ∧ b ≤ a ∧ a < b + blockSize i

variable {descs : Nat} {A : Arenas} {live : List Alloc} {vp i j b c a : Nat} {k : ArenaKind}

@[simp] theorem free_setKind (k : Option ArenaKind) : (A.setKind vp k).free = A.free := rfl

@[simp] theorem free_setFree_self (l : List Nat) : (A.setFree i l).free i = l :=
  Function.update_self ..

theorem free_setFree_of_ne (h : j ≠ i) (l : List Nat) : (A.setFree i l).free j = A.free j :=
  Function.update_of_ne h ..

@[simp] theorem kind_setKind_self (k : Option ArenaKind) : (A.setKind vp k).kind vp = k :=
  Function.update_self ..

theorem kind_setKind_of_ne {vp' : Nat} (h : vp' ≠ vp) (k : Option ArenaKind) :
    (A.setKind vp k).kind vp' = A.kind vp' :=
  Function.update_of_ne h ..

/-! ### Where blocks and allocations are -/

namespace Block

theorem kind (h : A.Block i b) : A.kind (b / 4096) = some (.small i) := by
  obtain ⟨vp, hkind, idx, hidx, rfl⟩ := h
  rw [blockAt_div hidx]
  exact hkind

theorem mem_blocksOf (h : A.Block i b) : b ∈ blocksOf (b / 4096) i := by
  obtain ⟨vp, -, idx, hidx, rfl⟩ := h
  rw [blockAt_div hidx]
  exact OriginOS.mem_blocksOf.mpr ⟨idx, hidx, rfl⟩

theorem bounds (h : A.Block i b) :
    4096 * (b / 4096) + 12 ≤ b ∧ b + blockSize i ≤ 4096 * (b / 4096 + 1) := by
  obtain ⟨vp, -, idx, hidx, rfl⟩ := h
  rw [blockAt_div hidx]
  exact ⟨le_blockAt vp i idx, blockAt_end hidx⟩

theorem mod (h : A.Block i b) : b % 4 = 0 := by
  obtain ⟨vp, -, idx, -, rfl⟩ := h
  exact blockAt_mod vp i idx

theorem desc_unique (h : A.Block i b) (h' : A.Block j b) : i = j := by
  have hkind := h.kind.symm.trans h'.kind
  injection Option.some.inj hkind

theorem apart (h : A.Block i b) (h' : A.Block j c) (hne : b ≠ c) :
    b + blockSize i ≤ c ∨ c + blockSize j ≤ b := by
  have hb := h.bounds
  have hc := h'.bounds
  by_cases hpage : b / 4096 = c / 4096
  · have hkind := h.kind
    rw [hpage, h'.kind] at hkind
    obtain rfl : j = i := by injection Option.some.inj hkind
    obtain ⟨vp, -, idx, hidx, rfl⟩ := h
    obtain ⟨vp', -, idx', hidx', rfl⟩ := h'
    rw [blockAt_div hidx, blockAt_div hidx'] at hpage
    subst hpage
    exact blockAt_apart hne
  · omega

end Block

/-- An allocation starts in the first page of its arena, behind the header, and ends in the arena.
-/
theorem Holds.bounds {x : Alloc} (h : A.Holds x) : ∃ k, A.kind (x.ptr / 4096) = some k ∧
    4096 * (x.ptr / 4096) + 12 ≤ x.ptr ∧ x.ptr + x.size ≤ 4096 * (x.ptr / 4096 + k.pages) := by
  rcases h with ⟨i, hblock, hsize⟩ | ⟨vp, n, hkind, hptr, hsize⟩
  · have hb := hblock.bounds
    exact ⟨_, hblock.kind, hb.1, by simp only [ArenaKind.pages]; omega⟩
  · have hdiv : x.ptr / 4096 = vp := by omega
    rw [hdiv]
    exact ⟨_, hkind, by omega, by simp only [ArenaKind.pages]; omega⟩

theorem mem_ptrs {live : List Alloc} : b ∈ ptrs live ↔ ∃ x ∈ live, x.ptr = b := List.mem_map

theorem Ok.kind_of_ptr (h : A.Ok descs live) (hb : b ∈ ptrs live) : A.kind (b / 4096) ≠ none := by
  obtain ⟨x, hx, rfl⟩ := mem_ptrs.mp hb
  obtain ⟨k, hkind, -⟩ := (h.holds x hx).bounds
  rw [hkind]
  exact Option.some_ne_none k

/-! ### What a call leaves alone -/

theorem Layout.untouched (h : A.Layout descs) (hkind : A.kind vp = some k) (hne : k ≠ .small i)
    (hlow : 4096 * vp ≤ a) (hhigh : a < 4096 * (vp + k.pages)) (hi : i < 7) :
    A.Untouched descs live i a := by
  refine ⟨?_, fun hkind' => ?_⟩
  · have hplace := (h.place vp k hkind).2
    simp only [descAt, Mem.descSize]
    omega
  · by_cases hvp : vp = a / 4096
    · rw [← hvp] at hkind'
      exact absurd (Option.some.inj (hkind.symm.trans hkind')) hne
    · have hap := h.apart _ _ _ _ hkind hkind' hvp
      omega

theorem Layout.untouched_desc (h : A.Layout descs) (hlow : descs ≤ a) (hhigh : a < descs + 168)
    (hlinks : a < descAt descs i + 12 ∨ descAt descs i + 20 ≤ a) : A.Untouched descs live i a := by
  refine ⟨hlinks, fun hkind => ?_⟩
  have hplace := (h.place _ _ hkind).2
  simp only [ArenaKind.pages] at hplace
  omega

theorem Ok.untouched_of_live (h : A.Ok descs live) {x : Alloc} (hx : x ∈ live) (hlow : x.ptr ≤ a)
    (hhigh : a < x.ptr + x.size) (hi : i < 7) : A.Untouched descs live i a := by
  rcases h.holds x hx with ⟨j, hblock, hsize⟩ | ⟨vp, n, hkind, hptr, hsize⟩
  · have hbounds := hblock.bounds
    refine ⟨?_, fun hkind => ⟨x.ptr, mem_ptrs.mpr ⟨x, hx, rfl⟩, ?_⟩⟩
    · have hplace := (h.place _ _ hblock.kind).2
      simp only [ArenaKind.pages, descAt, Mem.descSize] at hplace ⊢
      omega
    · rw [show a / 4096 = x.ptr / 4096 by omega, hblock.kind] at hkind
      obtain rfl : j = i := by injection Option.some.inj hkind
      exact ⟨hblock, hlow, by omega⟩
  · exact h.untouched hkind (fun heq => nomatch heq) (by omega)
      (by simp only [ArenaKind.pages]; omega) hi

namespace Untouched

theorem block (h : A.Untouched descs live i a) (hb : A.Block i b) (hdead : b ∉ ptrs live) :
    a < b ∨ b + blockSize i ≤ a := by
  by_contra hin
  have hbounds := hb.bounds
  have hkind := hb.kind
  rw [show b / 4096 = a / 4096 by omega] at hkind
  obtain ⟨c, hc, hblock, hlow, hhigh⟩ := h.page hkind
  have hne : b ≠ c := by
    rintro rfl
    exact hdead hc
  have hap := hb.apart hblock hne
  omega

theorem header (h : A.Untouched descs live i a) (hkind : A.kind vp = some (.small i)) :
    a < 4096 * vp ∨ 4096 * vp + 12 ≤ a := by
  by_contra hin
  rw [show vp = a / 4096 by omega] at hkind
  obtain ⟨c, -, hblock, hlow, hhigh⟩ := h.page hkind
  have hbounds := hblock.bounds
  omega

theorem offLinks (h : A.Untouched descs live i a) {l : List Nat}
    (hl : ∀ z ∈ l, A.Block i z ∧ z ∉ ptrs live) :
    OffLinks (descAt descs i + 8) l (descAt descs i + 16) a := by
  have hlinks := h.links
  refine ⟨by omega, fun z hz => ?_, by omega⟩
  have hsize := sixteen_le_blockSize i
  have hout := h.block (hl z hz).1 (hl z hz).2
  omega

end Untouched

/-! ### Memory changes -/

section Memory

variable {A' : Arenas} {m m' : Nat → UInt8}

theorem Header.congr (h : Header descs A m vp k)
    (hcount : ∀ i, k = .small i → A'.count vp i = A.count vp i)
    (hmem : ∀ a, 4096 * vp ≤ a → a < 4096 * vp + 12 → m' a = m a) : Header descs A' m' vp k := by
  have hload : ∀ off, off + 4 ≤ 12 → load32 m' (4096 * vp + off) = load32 m (4096 * vp + off) :=
    fun off hoff => load32_congr fun a ha ha' => hmem a (by omega) (by omega)
  have hfirst := hload 0 (by omega)
  cases k with
  | small i =>
    obtain ⟨hdesc, hcnt, hlarge⟩ := h
    exact ⟨hfirst.trans hdesc, (hload 4 (by omega)).trans (hcnt.trans (hcount i rfl).symm),
      (hload 8 (by omega)).trans hlarge⟩
  | large n =>
    obtain ⟨hdesc, hcnt, hlarge⟩ := h
    exact ⟨hfirst.trans hdesc, (hload 4 (by omega)).trans hcnt, (hload 8 (by omega)).trans hlarge⟩

theorem Stored.list_congr (h : A.Stored descs m) (hj : j < 7)
    (hdesc : ∀ a, descAt descs j + 8 ≤ a → a < descAt descs j + 24 → m' a = m a)
    (hblock : ∀ b ∈ A.free j, ∀ a, b ≤ a → a < b + blockSize j → m' a = m a) :
    Dlist m' (descAt descs j + 8) (A.free j) (descAt descs j + 16) := by
  refine (h.list j hj).congr fun z hz a ha ha' => ?_
  simp only [List.mem_cons, List.mem_append, List.not_mem_nil, or_false] at hz
  have hsize := sixteen_le_blockSize j
  rcases hz with rfl | hz | rfl
  · exact hdesc a ha (by omega)
  · exact hblock z hz a ha (by omega)
  · exact hdesc a (by omega) (by omega)

/-- A call on one descriptor keeps what the memory shows of the others. Its own list and headers are
to be shown; `B` has the arenas from before and after. -/
theorem Stored.update {B : Arenas} (live : List Alloc) (h : A.Stored descs m) (hB : B.Layout descs)
    (hi : i < 7)
    (hfree : ∀ j, j ≠ i → A'.free j = A.free j)
    (hblock : ∀ j < 7, j ≠ i → ∀ b ∈ A.free j, B.Block j b)
    (hkind : ∀ vp k, A'.kind vp = some k → k ≠ .small i → A.kind vp = some k ∧ B.kind vp = some k)
    (hlist : Dlist m' (descAt descs i + 8) (A'.free i) (descAt descs i + 16))
    (hheader : ∀ vp, A'.kind vp = some (.small i) → Header descs A' m' vp (.small i))
    (hframe : ∀ a, B.Untouched descs live i a → m' a = m a) : A'.Stored descs m' := by
  have hword : ∀ j < 7, ∀ off, off + 4 ≤ 12 ∨ off = 20 →
      load32 m' (descAt descs j + off) = load32 m (descAt descs j + off) := by
    intro j hj off hoff
    refine load32_congr fun a ha ha' => hframe a (hB.untouched_desc ?_ ?_ ?_)
    all_goals
      simp only [descAt, Mem.descSize] at ha ha' ⊢
      omega
  have hpage : ∀ vp k, B.kind vp = some k → k ≠ .small i → ∀ a, 4096 * vp ≤ a →
      a < 4096 * (vp + 1) → m' a = m a := by
    intro vp k hk hne a ha ha'
    have hpos := ArenaKind.pages_pos (hB.made vp k hk)
    exact hframe a (hB.untouched hk hne ha (by omega) hi)
  refine ⟨fun j hj => ?_, fun j hj => ?_, fun j hj => ?_, fun vp k hk => ?_⟩
  · obtain ⟨hsize, hcnt⟩ := h.desc j hj
    exact ⟨(hword j hj 0 (by omega)).trans hsize, (hword j hj 4 (by omega)).trans hcnt⟩
  · obtain ⟨hprev, hnext⟩ := h.ends j hj
    exact ⟨(hword j hj 8 (by omega)).trans hprev, (hword j hj 20 (by omega)).trans hnext⟩
  · by_cases hji : j = i
    · rw [hji]
      exact hlist
    · rw [hfree j hji]
      refine h.list_congr hj (fun a ha ha' => hframe a (hB.untouched_desc ?_ ?_ ?_))
        fun b hb a ha ha' => ?_
      iterate 3
        simp only [descAt, Mem.descSize] at ha ha' ⊢
        omega
      have hb := hblock j hj hji b hb
      have hbounds := hb.bounds
      refine hpage _ _ hb.kind (fun heq => hji ?_) a (by omega) (by omega)
      injection heq
  · by_cases hsmall : k = .small i
    · subst hsmall
      exact hheader vp hk
    · obtain ⟨hold, hboth⟩ := hkind vp k hk hsmall
      refine (h.header vp k hold).congr (fun j hj => ?_) fun a ha ha' => ?_
      · have hji : j ≠ i := by
          rintro rfl
          exact hsmall hj
        unfold count
        rw [hfree j hji]
      · exact hpage vp k hboth hsmall a ha (by omega)

theorem Stored.addLarge (h : A.Stored descs m) {live : List Alloc} (hA : A.Ok descs live) {n : Nat}
    (hheader : Header descs A m' vp (.large n))
    (hdescs : 4096 * (vp + n) ≤ descs ∨ descs + 168 ≤ 4096 * vp)
    (hfresh : ∀ vp' k', A.kind vp' = some k' → vp + n ≤ vp' ∨ vp' + k'.pages ≤ vp)
    (hframe : ∀ a, a < 4096 * vp ∨ 4096 * (vp + n) ≤ a → m' a = m a) :
    (A.setKind vp (some (.large n))).Stored descs m' := by
  have hdesc : ∀ a, descs ≤ a → a < descs + 168 → m' a = m a :=
    fun a ha ha' => hframe a (by omega)
  have hword : ∀ j < 7, ∀ off, off + 4 ≤ 24 →
      load32 m' (descAt descs j + off) = load32 m (descAt descs j + off) := by
    intro j hj off hoff
    refine load32_congr fun a ha ha' => hdesc a ?_ ?_
    all_goals
      simp only [descAt, Mem.descSize] at ha ha'
      omega
  refine ⟨fun j hj => ?_, fun j hj => ?_, fun j hj => ?_, fun vp' k' hk' => ?_⟩
  · obtain ⟨hsize, hcnt⟩ := h.desc j hj
    exact ⟨(hword j hj 0 (by omega)).trans hsize, (hword j hj 4 (by omega)).trans hcnt⟩
  · obtain ⟨hprev, hnext⟩ := h.ends j hj
    exact ⟨(hword j hj 8 (by omega)).trans hprev, (hword j hj 20 (by omega)).trans hnext⟩
  · refine h.list_congr hj (fun a ha ha' => hdesc a ?_ ?_) fun b hb a ha ha' => ?_
    iterate 2
      simp only [descAt, Mem.descSize] at ha ha'
      omega
    have hb := ((hA.free j hj b).mp hb).1
    have hbounds := hb.bounds
    have hap := hfresh _ _ hb.kind
    simp only [ArenaKind.pages] at hap
    exact hframe a (by omega)
  · by_cases hvp : vp' = vp
    · subst hvp
      rw [kind_setKind_self] at hk'
      obtain rfl := Option.some.inj hk'
      exact hheader
    · rw [kind_setKind_of_ne hvp] at hk'
      have hap := hfresh vp' k' hk'
      have hpos := ArenaKind.pages_pos (hA.made vp' k' hk')
      exact (h.header vp' k' hk').congr (fun _ _ => rfl) fun a ha ha' => hframe a (by omega)

end Memory

end Arenas

end OriginOS
