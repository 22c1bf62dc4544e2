import OriginOS.Kernel.Arenas

/-! How the arenas of a heap change: a block is taken off a free list or put on it, an arena is made
or given back. -/

namespace OriginOS

open Lib

namespace Arenas

variable {descs : Nat} {A : Arenas} {live : List Alloc} {vp i j b c a : Nat} {k : ArenaKind}

/-- The run of pages is apart from the arenas and the descriptors. -/
structure FreshRun (descs : Nat) (A : Arenas) (vp n : Nat) : Prop where
  apart : ∀ vp' k', A.kind vp' = some k' → vp + n ≤ vp' ∨ vp' + k'.pages ≤ vp
  place : 4096 * (vp + n) ≤ 2 ^ 32 ∧ (4096 * (vp + n) ≤ descs ∨ descs + 168 ≤ 4096 * vp)

theorem FreshRun.kind_ne {n : Nat} (h : A.FreshRun descs vp n) (hA : A.Layout descs) (hn : 0 < n)
    {vp' : Nat} (hkind : A.kind vp' = some k) : vp' ≠ vp := by
  rintro rfl
  have hap := h.apart vp' k hkind
  have hpos := ArenaKind.pages_pos (hA.made vp' k hkind)
  omega

theorem FreshRun.kind_none {n : Nat} (h : A.FreshRun descs vp n) (hA : A.Layout descs)
    (hn : 0 < n) : A.kind vp = none := by
  by_contra hne
  obtain ⟨k, hkind⟩ := Option.ne_none_iff_exists'.mp hne
  exact h.kind_ne hA hn hkind rfl

theorem Layout.add (h : A.Layout descs) (hk : k.Made) (hfresh : A.FreshRun descs vp k.pages) :
    (A.setKind vp (some k)).Layout descs := by
  have hcases : ∀ vp' k', (A.setKind vp (some k)).kind vp' = some k' →
      vp' = vp ∧ k' = k ∨ vp' ≠ vp ∧ A.kind vp' = some k' := by
    intro vp' k' hkind
    by_cases hvp : vp' = vp
    · subst hvp
      rw [kind_setKind_self] at hkind
      exact .inl ⟨rfl, (Option.some.inj hkind).symm⟩
    · rw [kind_setKind_of_ne hvp] at hkind
      exact .inr ⟨hvp, hkind⟩
  refine ⟨fun vp' k' hkind => ?_, fun vp' k' hkind => ?_, fun vp₁ vp₂ k₁ k₂ h₁ h₂ hne => ?_⟩
  · rcases hcases vp' k' hkind with ⟨rfl, rfl⟩ | ⟨-, hold⟩
    · exact hk
    · exact h.made vp' k' hold
  · rcases hcases vp' k' hkind with ⟨rfl, rfl⟩ | ⟨-, hold⟩
    · exact hfresh.place
    · exact h.place vp' k' hold
  · rcases hcases vp₁ k₁ h₁ with ⟨rfl, rfl⟩ | ⟨-, hold₁⟩ <;>
      rcases hcases vp₂ k₂ h₂ with ⟨rfl, rfl⟩ | ⟨-, hold₂⟩
    · exact absurd rfl hne
    · exact hfresh.apart vp₂ k₂ hold₂
    · exact (hfresh.apart vp₁ k₁ hold₁).symm
    · exact h.apart vp₁ vp₂ k₁ k₂ hold₁ hold₂ hne

theorem kind_of_setKind {vp' : Nat} {k₀ : Option ArenaKind}
    (h : (A.setKind vp k₀).kind vp' = some k)
    (hk : some k ≠ k₀) : vp' ≠ vp ∧ A.kind vp' = some k := by
  have hne : vp' ≠ vp := by
    rintro rfl
    rw [kind_setKind_self] at h
    exact hk h.symm
  rw [kind_setKind_of_ne hne] at h
  exact ⟨hne, h⟩

theorem kind_of_remove {vp' : Nat} (h : (A.setKind vp none).kind vp' = some k) :
    vp' ≠ vp ∧ A.kind vp' = some k := kind_of_setKind h nofun

theorem kind_of_add {vp' : Nat} {k' : ArenaKind} (h : (A.setKind vp (some k)).kind vp' = some k')
    (hne : k' ≠ k) : vp' ≠ vp ∧ A.kind vp' = some k' :=
  kind_of_setKind h fun heq => hne (Option.some.inj heq)

theorem Layout.remove (h : A.Layout descs) (vp : Nat) : (A.setKind vp none).Layout descs :=
  ⟨fun _ _ hk => h.made _ _ (kind_of_remove hk).2, fun _ _ hk => h.place _ _ (kind_of_remove hk).2,
    fun _ _ _ _ hk hk' hne => h.apart _ _ _ _ (kind_of_remove hk).2 (kind_of_remove hk').2 hne⟩

theorem Layout.setFree (h : A.Layout descs) (i : Nat) (l : List Nat) :
    (A.setFree i l).Layout descs := ⟨h.made, h.place, h.apart⟩

theorem block_setFree {l : List Nat} : (A.setFree i l).Block j b ↔ A.Block j b := Iff.rfl

theorem Block.add (h : A.Block j b) (hnone : A.kind vp = none) (k : ArenaKind) :
    (A.setKind vp (some k)).Block j b := by
  obtain ⟨vp', hkind, hidx⟩ := h
  refine ⟨vp', ?_, hidx⟩
  rw [kind_setKind_of_ne (by rintro rfl; rw [hnone] at hkind; exact nomatch hkind)]
  exact hkind

theorem Holds.add {x : Alloc} (h : A.Holds x) (hnone : A.kind vp = none) (k : ArenaKind) :
    (A.setKind vp (some k)).Holds x := by
  rcases h with ⟨i, hblock, hsize⟩ | ⟨vp', n, hkind, hx⟩
  · exact .inl ⟨i, hblock.add hnone k, hsize⟩
  · refine .inr ⟨vp', n, ?_, hx⟩
    rw [kind_setKind_of_ne (by rintro rfl; rw [hnone] at hkind; exact nomatch hkind)]
    exact hkind

theorem block_add_small (hnone : A.kind vp = none) :
    (A.setKind vp (some (.small i))).Block j b ↔ A.Block j b ∨ j = i ∧ b ∈ blocksOf vp i := by
  constructor
  · rintro ⟨vp', hkind, idx, hidx, rfl⟩
    by_cases hvp : vp' = vp
    · subst hvp
      rw [kind_setKind_self] at hkind
      obtain rfl : i = j := by injection Option.some.inj hkind
      exact .inr ⟨rfl, mem_blocksOf.mpr ⟨idx, hidx, rfl⟩⟩
    · rw [kind_setKind_of_ne hvp] at hkind
      exact .inl ⟨vp', hkind, idx, hidx, rfl⟩
  · rintro (hblock | ⟨rfl, hmem⟩)
    · exact hblock.add hnone _
    · exact ⟨vp, kind_setKind_self _, mem_blocksOf.mp hmem⟩

theorem block_add_large {n : Nat} (hnone : A.kind vp = none) :
    (A.setKind vp (some (.large n))).Block j b ↔ A.Block j b := by
  refine ⟨fun h => ?_, fun h => h.add hnone _⟩
  obtain ⟨vp', hkind, hidx⟩ := h
  by_cases hvp : vp' = vp
  · subst hvp
    rw [kind_setKind_self] at hkind
    injection Option.some.inj hkind
  · rw [kind_setKind_of_ne hvp] at hkind
    exact ⟨vp', hkind, hidx⟩

theorem block_remove : (A.setKind vp none).Block j b ↔ A.Block j b ∧ b / 4096 ≠ vp := by
  constructor
  · intro h
    have hkind := kind_of_remove h.kind
    obtain ⟨vp', hvp', hidx⟩ := h
    exact ⟨⟨vp', (kind_of_remove hvp').2, hidx⟩, hkind.1⟩
  · rintro ⟨⟨vp', hkind, idx, hidx, rfl⟩, hne⟩
    rw [blockAt_div hidx] at hne
    refine ⟨vp', ?_, idx, hidx, rfl⟩
    rw [kind_setKind_of_ne hne]
    exact hkind

theorem Holds.remove {x : Alloc} (h : A.Holds x) (hne : x.ptr / 4096 ≠ vp) :
    (A.setKind vp none).Holds x := by
  rcases h with ⟨i, hblock, hsize⟩ | ⟨vp', n, hkind, hptr, hsize⟩
  · exact .inl ⟨i, block_remove.mpr ⟨hblock, hne⟩, hsize⟩
  · refine .inr ⟨vp', n, ?_, hptr, hsize⟩
    rw [kind_setKind_of_ne (by omega)]
    exact hkind

def without (live : List Alloc) (p : Nat) : List Alloc := live.filter (·.ptr ≠ p)

theorem mem_without {x : Alloc} {p : Nat} : x ∈ without live p ↔ x ∈ live ∧ x.ptr ≠ p := by
  simp [without]

theorem mem_ptrs_without {p : Nat} : b ∈ ptrs (without live p) ↔ b ∈ ptrs live ∧ b ≠ p := by
  simp only [mem_ptrs, mem_without]
  constructor
  · rintro ⟨x, ⟨hx, hne⟩, rfl⟩
    exact ⟨⟨x, hx, rfl⟩, hne⟩
  · rintro ⟨⟨x, hx, rfl⟩, hne⟩
    exact ⟨x, ⟨hx, hne⟩, rfl⟩

theorem nodup_ptrs_without (h : (ptrs live).Nodup) (p : Nat) : (ptrs (without live p)).Nodup :=
  h.sublist (List.filter_sublist.map _)

theorem Ok.pop (h : A.Ok descs live) (hi : i < 7) {l : List Nat} {size : Nat}
    (hfree : A.free i = b :: l) (hnodup : (b :: l).Nodup) (hsize : size ≤ blockSize i) :
    (A.setFree i l).Ok descs (⟨b, size⟩ :: live) := by
  obtain ⟨hblock, hdead⟩ := (h.free i hi b).mp (hfree ▸ List.mem_cons_self)
  have hnot := (List.nodup_cons.mp hnodup).1
  refine ⟨h.toLayout.setFree i l, fun j hj c => ?_, fun x hx => ?_, ?_⟩
  · rw [block_setFree, show ptrs (⟨b, size⟩ :: live) = b :: ptrs live from rfl, List.mem_cons]
    by_cases hji : j = i
    · subst hji
      have hmem := h.free j hj c
      rw [hfree, List.mem_cons] at hmem
      rw [free_setFree_self]
      constructor
      · intro hc
        have hc' := hmem.mp (.inr hc)
        refine ⟨hc'.1, ?_⟩
        rintro (rfl | hl)
        · exact hnot hc
        · exact hc'.2 hl
      · rintro ⟨hc, hnl⟩
        exact (hmem.mpr ⟨hc, fun hl => hnl (.inr hl)⟩).resolve_left fun heq => hnl (.inl heq)
    · rw [free_setFree_of_ne hji, h.free j hj c]
      refine and_congr_right fun hc => not_congr ⟨.inr, fun hor => hor.resolve_left ?_⟩
      rintro rfl
      exact hji (hc.desc_unique hblock)
  · rcases List.mem_cons.mp hx with rfl | hx
    · exact .inl ⟨i, hblock, hsize⟩
    · exact h.holds x hx
  · exact List.nodup_cons.mpr ⟨hdead, h.nodup⟩

theorem Ok.push (h : A.Ok descs live) (hblock : A.Block i b) (hlive : b ∈ ptrs live) :
    (A.setFree i (A.free i ++ [b])).Ok descs (without live b) := by
  refine ⟨h.toLayout.setFree i _, fun j hj c => ?_, fun x hx => h.holds x (mem_without.mp hx).1,
    nodup_ptrs_without h.nodup b⟩
  rw [block_setFree, mem_ptrs_without]
  have hmem := h.free j hj c
  by_cases hji : j = i
  · subst hji
    rw [free_setFree_self, List.mem_append, List.mem_singleton, hmem]
    constructor
    · rintro (⟨hc, hdead⟩ | rfl)
      · exact ⟨hc, fun hl => hdead hl.1⟩
      · exact ⟨hblock, fun hl => hl.2 rfl⟩
    · rintro ⟨hc, hnot⟩
      by_cases heq : c = b
      · exact .inr heq
      · exact .inl ⟨hc, fun hl => hnot ⟨hl, heq⟩⟩
  · rw [free_setFree_of_ne hji, hmem]
    refine and_congr_right fun hc => not_congr ⟨fun hl => ⟨hl, ?_⟩, fun hl => hl.1⟩
    rintro rfl
    exact hji (hc.desc_unique hblock)

theorem Ok.addSmall (h : A.Ok descs live) (hi : i < 7) (hfresh : A.FreshRun descs vp 1) :
    ((A.setKind vp (some (.small i))).setFree i (A.free i ++ blocksOf vp i)).Ok descs live := by
  have hnone := hfresh.kind_none h.toLayout Nat.one_pos
  refine ⟨(h.toLayout.add (k := .small i) hi hfresh).setFree i _, fun j hj c => ?_,
    fun x hx => (h.holds x hx).add hnone _, h.nodup⟩
  rw [block_setFree, block_add_small hnone]
  have hmem := h.free j hj c
  -- no allocation is in the new page
  have hdead : c ∈ blocksOf vp i → c ∉ ptrs live := by
    intro hc hl
    obtain ⟨idx, hidx, rfl⟩ := mem_blocksOf.mp hc
    have hkind := h.kind_of_ptr hl
    rw [blockAt_div hidx] at hkind
    exact hkind hnone
  by_cases hji : j = i
  · subst hji
    rw [free_setFree_self, List.mem_append, hmem]
    tauto
  · rw [free_setFree_of_ne hji, free_setKind, hmem]
    tauto

theorem Ok.removeSmall (h : A.Ok descs live) (hkind : A.kind vp = some (.small i))
    (hdead : ∀ b ∈ ptrs live, b / 4096 ≠ vp) :
    ((A.setKind vp none).setFree i ((A.free i).filter (· / 4096 ≠ vp))).Ok descs live := by
  refine ⟨(h.toLayout.remove vp).setFree i _, fun j hj c => ?_,
    fun x hx => (h.holds x hx).remove (hdead _ (mem_ptrs.mpr ⟨x, hx, rfl⟩)), h.nodup⟩
  rw [block_setFree, block_remove]
  have hmem := h.free j hj c
  by_cases hji : j = i
  · subst hji
    rw [free_setFree_self, List.mem_filter, hmem, decide_eq_true_iff]
    tauto
  · rw [free_setFree_of_ne hji, free_setKind, hmem]
    have hpage : A.Block j c → c / 4096 ≠ vp := by
      rintro hc rfl
      have heq := Option.some.inj (hc.kind.symm.trans hkind)
      exact hji (by injection heq)
    tauto

theorem Ok.addLarge (h : A.Ok descs live) {n size : Nat} (hn : 0 < n) (hlt : n < 2 ^ 32)
    (hfresh : A.FreshRun descs vp n) (hsize : size + 12 ≤ 4096 * n) :
    (A.setKind vp (some (.large n))).Ok descs (⟨4096 * vp + 12, size⟩ :: live) := by
  have hnone := hfresh.kind_none h.toLayout hn
  have hdead : 4096 * vp + 12 ∉ ptrs live := by
    intro hl
    have hkind := h.kind_of_ptr hl
    rw [show (4096 * vp + 12) / 4096 = vp by omega] at hkind
    exact hkind hnone
  refine ⟨h.toLayout.add ⟨hn, hlt⟩ hfresh, fun j hj c => ?_, fun x hx => ?_,
    List.nodup_cons.mpr ⟨hdead, h.nodup⟩⟩
  · rw [block_add_large hnone, free_setKind, h.free j hj c]
    refine and_congr_right fun hc => not_congr ⟨List.mem_cons_of_mem _, fun hl => ?_⟩
    refine (List.mem_cons.mp hl).resolve_left ?_
    rintro rfl
    have hkind := hc.kind
    rw [show (4096 * vp + 12) / 4096 = vp by omega, hnone] at hkind
    exact nomatch hkind
  · rcases List.mem_cons.mp hx with rfl | hx
    · exact .inr ⟨vp, n, kind_setKind_self _, rfl, hsize⟩
    · exact (h.holds x hx).add hnone _

theorem Ok.removeLarge (h : A.Ok descs live) {n : Nat} (hkind : A.kind vp = some (.large n)) :
    (A.setKind vp none).Ok descs (without live (4096 * vp + 12)) := by
  have hpage : ∀ j c, A.Block j c → c / 4096 ≠ vp := by
    rintro j c hc rfl
    have heq := Option.some.inj (hc.kind.symm.trans hkind)
    injection heq
  refine ⟨h.toLayout.remove vp, fun j hj c => ?_, fun x hx => ?_, nodup_ptrs_without h.nodup _⟩
  · rw [block_remove, free_setKind, h.free j hj c, mem_ptrs_without]
    constructor
    · rintro ⟨hc, hdead⟩
      exact ⟨⟨hc, hpage j c hc⟩, fun hl => hdead hl.1⟩
    · rintro ⟨⟨hc, hne⟩, hdead⟩
      exact ⟨hc, fun hl => hdead ⟨hl, fun heq => hne (by omega)⟩⟩
  · obtain ⟨hx, hne⟩ := mem_without.mp hx
    refine (h.holds x hx).remove fun hvp => hne ?_
    -- the only allocation of a large arena is behind its header
    rcases h.holds x hx with ⟨i, hblock, -⟩ | ⟨vp', n', -, hptr, -⟩
    · exact absurd hvp (hpage i _ hblock)
    · omega

/-! ### Counting free blocks -/

theorem count_eq (vp i : Nat) : A.count vp i = ((A.free i).filter (· / 4096 = vp)).length :=
  List.countP_eq_length_filter

theorem Ok.free_subperm (h : A.Ok descs live) (hi : i < 7) (hnodup : (A.free i).Nodup) :
    ((A.free i).filter (· / 4096 = vp)).Subperm (blocksOf vp i) := by
  refine List.Nodup.subperm (hnodup.filter _) fun b hb => ?_
  obtain ⟨hmem, hpage⟩ := List.mem_filter.mp hb
  have hblock := ((h.free i hi b).mp hmem).1.mem_blocksOf
  rwa [of_decide_eq_true hpage] at hblock

theorem Ok.count_le (h : A.Ok descs live) (hi : i < 7) (hnodup : (A.free i).Nodup) (vp : Nat) :
    A.count vp i ≤ blocksPerArena i := by
  rw [count_eq, ← length_blocksOf vp i]
  exact (h.free_subperm hi hnodup).length_le

theorem Ok.mem_free_of_full (h : A.Ok descs live) (hi : i < 7) (hnodup : (A.free i).Nodup)
    (hfull : A.count vp i = blocksPerArena i) (hb : b ∈ blocksOf vp i) : b ∈ A.free i := by
  rw [count_eq, ← length_blocksOf vp i] at hfull
  have hperm := (h.free_subperm hi hnodup).perm_of_length_le (Nat.le_of_eq hfull.symm)
  exact (List.mem_filter.mp (hperm.mem_iff.mpr hb)).1

theorem count_setFree_of_ne (h : j ≠ i) (l : List Nat) :
    (A.setFree i l).count vp j = A.count vp j := by
  unfold count
  rw [free_setFree_of_ne h]

theorem count_setFree_self (l : List Nat) :
    (A.setFree i l).count vp i = l.countP fun b => b / 4096 = vp := by
  unfold count
  rw [free_setFree_self]

theorem count_setKind (k : Option ArenaKind) {vp' : Nat} :
    (A.setKind vp k).count vp' j = A.count vp' j := rfl

theorem count_pop (vp : Nat) {l : List Nat} (h : A.free i = b :: l) :
    A.count vp i = (A.setFree i l).count vp i + if b / 4096 = vp then 1 else 0 := by
  rw [count_setFree_self, count, h, List.countP_cons]
  simp only [decide_eq_true_eq]

theorem count_push : (A.setFree i (A.free i ++ [b])).count vp i =
    A.count vp i + if b / 4096 = vp then 1 else 0 := by
  rw [count_setFree_self, List.countP_append, List.countP_singleton]
  simp only [decide_eq_true_eq]
  rfl

theorem countP_blocksOf (vp i vp' : Nat) : ((blocksOf vp i).countP fun b => b / 4096 = vp') =
    if vp = vp' then blocksPerArena i else 0 := by
  have hdiv : ∀ b ∈ blocksOf vp i, b / 4096 = vp := by
    intro b hb
    obtain ⟨idx, hidx, rfl⟩ := mem_blocksOf.mp hb
    exact blockAt_div hidx
  split
  next heq =>
    rw [← length_blocksOf vp i, List.countP_eq_length]
    exact fun b hb => decide_eq_true ((hdiv b hb).trans heq)
  next hne =>
    rw [List.countP_eq_zero]
    intro b hb hp
    exact hne ((hdiv b hb).symm.trans (of_decide_eq_true hp))

theorem count_addSmall {vp' : Nat} :
    ((A.setKind vp (some (.small i))).setFree i (A.free i ++ blocksOf vp i)).count vp' i =
      A.count vp' i + if vp = vp' then blocksPerArena i else 0 := by
  rw [count_setFree_self, List.countP_append, countP_blocksOf]
  rfl

theorem count_removeSmall {vp' : Nat} (h : vp' ≠ vp) :
    ((A.setKind vp none).setFree i ((A.free i).filter (· / 4096 ≠ vp))).count vp' i =
      A.count vp' i := by
  rw [count_setFree_self, List.countP_filter]
  refine List.countP_congr fun b _ => ?_
  simp only [Bool.and_eq_true, decide_eq_true_eq]
  constructor
  · exact fun hb => hb.1
  · rintro rfl
    exact ⟨rfl, h⟩

/-! ### Every arena is in use -/

/-- After a block is taken, the arenas are in use that were so before, and the block's own. -/
theorem Occupied.pop (hA : A.Ok descs live) (hnodup : (A.free i).Nodup) {l : List Nat} {size : Nat}
    (hfree : A.free i = b :: l)
    (hsmall : ∀ vp j, A.kind vp = some (.small j) →
      A.count vp j < blocksPerArena j ∨ j = i ∧ b / 4096 = vp)
    (hlarge : ∀ vp n, A.kind vp = some (.large n) → 4096 * vp + 12 ∈ ptrs live) :
    (A.setFree i l).Occupied (⟨b, size⟩ :: live) := by
  refine ⟨fun vp j hkind => ?_, fun vp n hkind => List.mem_cons_of_mem _ (hlarge vp n hkind)⟩
  have hj : j < 7 := hA.made vp _ hkind
  by_cases hji : j = i
  · subst hji
    have hpop := count_pop vp hfree
    have hle := hA.count_le hj hnodup vp
    rcases hsmall vp j hkind with hlt | ⟨-, hpage⟩
    · omega
    · rw [if_pos hpage] at hpop
      omega
  · rw [count_setFree_of_ne hji]
    exact (hsmall vp j hkind).resolve_right fun h => hji h.1

/-- After a block is freed, every arena is in use unless all blocks of the block's arena are free.
-/
theorem Occupied.push (h : A.Occupied live) (hblock : A.Block i b)
    (hcount : A.count (b / 4096) i + 1 ≠ blocksPerArena i) :
    (A.setFree i (A.free i ++ [b])).Occupied (without live b) := by
  refine ⟨fun vp j hkind => ?_, fun vp n hkind => mem_ptrs_without.mpr ⟨h.large vp n hkind, ?_⟩⟩
  · have hlt := h.small vp j hkind
    by_cases hji : j = i
    · subst hji
      rw [count_push]
      split
      next heq =>
        subst heq
        omega
      next => omega
    · rw [count_setFree_of_ne hji]
      exact hlt
  · rintro rfl
    have heq := hblock.kind
    rw [show (4096 * vp + 12) / 4096 = vp by omega] at heq
    injection Option.some.inj (hkind.symm.trans heq)

theorem Occupied.removeSmall (h : A.Occupied live) (hblock : A.Block i b) :
    (((A.setFree i (A.free i ++ [b])).setKind (b / 4096) none).setFree i
      ((A.free i ++ [b]).filter (· / 4096 ≠ b / 4096))).Occupied (without live b) := by
  refine ⟨fun vp j hkind => ?_, fun vp n hkind => mem_ptrs_without.mpr ?_⟩
  · obtain ⟨hne, hkind⟩ := kind_of_remove hkind
    have hlt := h.small vp j hkind
    by_cases hji : j = i
    · subst hji
      have hcount := count_removeSmall (A := A.setFree j (A.free j ++ [b])) (i := j) hne
      rw [free_setFree_self, count_push, if_neg (Ne.symm hne)] at hcount
      rw [hcount]
      exact hlt
    · rw [count_setFree_of_ne hji, count_setKind, count_setFree_of_ne hji]
      exact hlt
  · obtain ⟨hne, hkind⟩ := kind_of_remove hkind
    exact ⟨h.large vp n hkind, by rintro rfl; omega⟩

theorem Occupied.addLarge (h : A.Occupied live) (n size : Nat) :
    (A.setKind vp (some (.large n))).Occupied (⟨4096 * vp + 12, size⟩ :: live) := by
  refine ⟨fun vp' j hkind => h.small vp' j (kind_of_add hkind nofun).2, fun vp' n' hkind => ?_⟩
  by_cases hvp : vp' = vp
  · subst hvp
    exact List.mem_cons_self
  · rw [kind_setKind_of_ne hvp] at hkind
    exact List.mem_cons_of_mem _ (h.large vp' n' hkind)

theorem Occupied.removeLarge (h : A.Occupied live) :
    (A.setKind vp none).Occupied (without live (4096 * vp + 12)) := by
  refine ⟨fun vp' j hkind => h.small vp' j (kind_of_remove hkind).2, fun vp' n hkind => ?_⟩
  obtain ⟨hne, hkind⟩ := kind_of_remove hkind
  exact mem_ptrs_without.mpr ⟨h.large vp' n hkind, by omega⟩

end Arenas

end OriginOS
