import OriginOS.Kernel.Arenas
import OriginOS.Kernel.FlatView

/-! The loops of `sys_malloc` and `sys_free` over a flat memory: the search for a descriptor, the
split of a new arena into blocks and the removal of an arena's blocks from their free list. -/

namespace OriginOS

open Lib

variable {g : Frames} {s : MemState} {m m' : Nat → UInt8} {desc vp i idx : Nat} {l l' : List Nat}

/-- The memory shows the arena in the page `vp` and its descriptor, and the list nodes `l` lie apart
from both. -/
structure ArenaView (g : Frames) (s : MemState) (m : Nat → UInt8) (desc vp i : Nat) (l : List Nat) :
    Prop where
  nodes : ∀ z ∈ (desc + 8) :: (l ++ [desc + 16]), DataNode g s z
  apart : ((desc + 8) :: (l ++ [desc + 16])).Pairwise NodesApart
  words : DataWord g s (4096 * vp) ∧ DataWord g s desc ∧ DataWord g s (desc + 4)
  off : ∀ w ∈ [4096 * vp, desc, desc + 4], ∀ a, w ≤ a → a < w + 4 →
    OffLinks (desc + 8) l (desc + 16) a
  arena : load32 m (4096 * vp) = desc
  size : load32 m desc = blockSize i
  cnt : load32 m (desc + 4) = blocksPerArena i

namespace ArenaView

theorem congr (h : ArenaView g s m desc vp i l)
    (hmem : ∀ a, OffLinks (desc + 8) l (desc + 16) a → m' a = m a) :
    ArenaView g s m' desc vp i l := by
  have hload : ∀ w ∈ [4096 * vp, desc, desc + 4], load32 m' w = load32 m w :=
    fun w hw => load32_congr fun a ha ha' => hmem a (h.off w hw a ha ha')
  exact ⟨h.nodes, h.apart, h.words, h.off, (hload _ (by simp)).trans h.arena,
    (hload _ (by simp)).trans h.size, (hload _ (by simp)).trans h.cnt⟩

theorem sublist (h : ArenaView g s m desc vp i l) (hsub : l'.Sublist l) :
    ArenaView g s m desc vp i l' := by
  have hnodes : ((desc + 8) :: (l' ++ [desc + 16])).Sublist ((desc + 8) :: (l ++ [desc + 16])) :=
    (hsub.append_right _).cons_cons _
  exact ⟨fun z hz => h.nodes z (hnodes.subset hz), h.apart.sublist hnodes, h.words,
    fun w hw a ha ha' => (h.off w hw a ha ha').mono hsub.subset, h.arena, h.size, h.cnt⟩

theorem bound (h : ArenaView g s m desc vp i l) : desc + 24 ≤ 2 ^ 32 :=
  (h.nodes (desc + 16) (by simp)).bound

theorem field_cnt (h : ArenaView g s m desc vp i l) : Mem.field desc 4 = desc + 4 := by
  have hbound := h.bound
  exact Mem.field_eq (by omega)

theorem field_list (h : ArenaView g s m desc vp i l) : Mem.field desc 8 = desc + 8 := by
  have hbound := h.bound
  exact Mem.field_eq (by omega)

theorem does_arena2block (h : ArenaView g s m desc vp i l) (hmem : blockAt vp i idx ∈ l) :
    Does g s (Mem.arena2block (4096 * vp) idx) m (blockAt vp i idx) m := by
  have hbound := (h.nodes (blockAt vp i idx) (by simp [hmem])).bound
  unfold Mem.arena2block
  refine (does_loadWord h.words.1).bind ?_
  rw [h.arena]
  refine (does_loadWord h.words.2.1).bind ?_
  rw [h.size, Nat.mod_eq_of_lt (by unfold blockAt at hbound; simp only [Mem.arenaSize]; omega)]
  exact Does.pure (blockAt vp i idx)

end ArenaView

/-- The blocks of an arena from the index `idx` on. -/
def blocksFrom (vp i idx r : Nat) : List Nat := (List.range' idx r).map (blockAt vp i)

theorem blocksFrom_succ (vp i idx r : Nat) :
    blocksFrom vp i idx (r + 1) = blockAt vp i idx :: blocksFrom vp i (idx + 1) r := by
  simp [blocksFrom, List.range'_succ]

theorem blocksFrom_zero (vp i : Nat) : blocksFrom vp i 0 (blocksPerArena i) = blocksOf vp i := by
  simp [blocksFrom, blocksOf, List.range_eq_range']

/-- The loop of `sys_malloc` puts the blocks of the arena on the free list, in order. -/
theorem does_sysMallocSplit {r fuel : Nat} (hr : idx + r = blocksPerArena i) (hfuel : r < fuel)
    (hview : ArenaView g s m desc vp i (l ++ blocksFrom vp i idx r))
    (hlist : Dlist m (desc + 8) l (desc + 16)) :
    ∃ m', Does g s (Mem.sysMallocSplit desc (4096 * vp) fuel idx) m () m' ∧
      Dlist m' (desc + 8) (l ++ blocksFrom vp i idx r) (desc + 16) ∧
      ∀ a, OffLinks (desc + 8) (l ++ blocksFrom vp i idx r) (desc + 16) a → m' a = m a := by
  induction r generalizing m l idx fuel with
  | zero =>
    obtain ⟨fuel, rfl⟩ := Nat.exists_eq_succ_of_ne_zero (Nat.ne_of_gt hfuel)
    refine ⟨m, ?_, by simpa [blocksFrom] using hlist, fun _ _ => rfl⟩
    rw [Mem.sysMallocSplit, hview.field_cnt]
    refine (does_loadWord hview.words.2.2).bind ?_
    rw [hview.cnt, if_neg (by omega)]
    exact Does.pure ()
  | succ r ih =>
    obtain ⟨fuel, rfl⟩ := Nat.exists_eq_succ_of_ne_zero (Nat.ne_of_gt (Nat.zero_lt_of_lt hfuel))
    rw [blocksFrom_succ] at hview ⊢
    generalize hb : blockAt vp i idx = b at hview
    have happ : l ++ b :: blocksFrom vp i (idx + 1) r =
      (l ++ [b]) ++ blocksFrom vp i (idx + 1) r := by
      simp
    have hold := hview.sublist (List.sublist_append_left l _)
    have hbnode := hview.nodes b (by simp)
    -- the new block is apart from the list and from its ends
    have hbapart : ∀ z ∈ (desc + 8) :: (l ++ [desc + 16]), NodesApart z b := by
      have hperm : ((desc + 8) :: (l ++ b :: blocksFrom vp i (idx + 1) r ++ [desc + 16])).Perm
          (b :: (desc + 8) :: (l ++ (blocksFrom vp i (idx + 1) r ++ [desc + 16]))) := by
        rw [List.append_assoc]
        exact @List.perm_middle _ b ((desc + 8) :: l) _
      have hpair := (hperm.pairwise_iff fun h => NodesApart.symm h).mp hview.apart
      refine fun z hz => ((List.pairwise_cons.mp hpair).1 z ?_).symm
      simp only [List.mem_cons, List.mem_append, List.not_mem_nil, or_false] at hz ⊢
      tauto
    have hnot : b ∉ l := by
      intro hmem
      have hself := hbapart b (by simp [hmem])
      unfold NodesApart at hself
      omega
    have hlist' := hlist.insertBefore hbapart (by have hbound := hbnode.bound; omega)
    have hframe : ∀ a, OffLinks (desc + 8) (l ++ b :: blocksFrom vp i (idx + 1) r) (desc + 16) a →
        insertBefore m (desc + 16) b a = m a := by
      refine fun a ha => hlist.insertBefore_apply (ha.mono fun z hz => ?_)
      simp only [List.mem_cons, List.mem_append] at hz ⊢
      tauto
    have hview' := hview.congr hframe
    rw [happ] at hview'
    obtain ⟨m', hdoes, hlist'', hframe'⟩ :=
      ih (by omega) (show r < fuel by omega) hview' hlist'
    refine ⟨m', ?_, happ ▸ hlist'', fun a ha => (hframe' a (happ ▸ ha)).trans (hframe a ha)⟩
    rw [Mem.sysMallocSplit, hview.field_cnt]
    refine (does_loadWord hview.words.2.2).bind ?_
    rw [hview.cnt, if_pos (by omega)]
    refine (hview.does_arena2block (show blockAt vp i idx ∈ _ by simp [hb])).bind ?_
    rw [hb]
    refine (Does.assertM _ ?_).bind ((does_loadWord hview.words.1).bind ?_)
    · refine (does_loadWord hview.words.1).bind ?_
      rw [hview.arena, hview.field_list]
      refine (does_elemFind hlist hold.nodes hlist.length_lt b).bind ?_
      rw [decide_eq_false hnot]
      exact Does.pure true
    · rw [hview.arena, hview.field_list]
      exact (does_listAppend hlist hold.nodes hbnode).bind hdoes

theorem does_sysFreeLoop {r fuel : Nat} (hr : idx + r = blocksPerArena i) (hfuel : r < fuel)
    (hview : ArenaView g s m desc vp i l) (hlist : Dlist m (desc + 8) l (desc + 16))
    (hmem : ∀ b ∈ blocksFrom vp i idx r, b ∈ l) (hnodup : (blocksFrom vp i idx r).Nodup) :
    ∃ m', Does g s (Mem.sysFreeLoop (4096 * vp) fuel idx) m () m' ∧
      Dlist m' (desc + 8) (l.filter (· ∉ blocksFrom vp i idx r)) (desc + 16) ∧
      ∀ a, OffLinks (desc + 8) l (desc + 16) a → m' a = m a := by
  induction r generalizing m l idx fuel with
  | zero =>
    obtain ⟨fuel, rfl⟩ := Nat.exists_eq_succ_of_ne_zero (Nat.ne_of_gt hfuel)
    refine ⟨m, ?_, by simpa [blocksFrom] using hlist, fun _ _ => rfl⟩
    rw [Mem.sysFreeLoop]
    refine (does_loadWord hview.words.1).bind ?_
    rw [hview.arena, hview.field_cnt]
    refine (does_loadWord hview.words.2.2).bind ?_
    rw [hview.cnt, if_neg (by omega)]
    exact Does.pure ()
  | succ r ih =>
    obtain ⟨fuel, rfl⟩ := Nat.exists_eq_succ_of_ne_zero (Nat.ne_of_gt (Nat.zero_lt_of_lt hfuel))
    rw [blocksFrom_succ] at hmem hnodup ⊢
    generalize hb : blockAt vp i idx = b at hmem hnodup
    obtain ⟨hnot, hnodup⟩ := List.nodup_cons.mp hnodup
    have hbmem : b ∈ l := hmem b List.mem_cons_self
    obtain ⟨l₁, l₂, rfl⟩ := List.append_of_mem hbmem
    have hlist' := hlist.unlink
    have hframe : ∀ a, OffLinks (desc + 8) (l₁ ++ b :: l₂) (desc + 16) a → unlink m b a = m a :=
      fun a ha => hlist.unlink_apply ha
    have hsub : (l₁ ++ l₂).Sublist (l₁ ++ b :: l₂) :=
      List.Sublist.append_left (List.sublist_cons_self b l₂) l₁
    have hrest : ∀ c ∈ blocksFrom vp i (idx + 1) r, c ∈ l₁ ++ l₂ := by
      intro c hc
      have hne : c ≠ b := by
        rintro rfl
        exact hnot hc
      have hmem' := hmem c (List.mem_cons_of_mem b hc)
      simp only [List.mem_append, List.mem_cons] at hmem' ⊢
      tauto
    obtain ⟨m', hdoes, hlist'', hframe'⟩ := ih (by omega) (show r < fuel by omega)
      ((hview.congr hframe).sublist hsub) hlist' hrest hnodup
    -- the block stands in the list once
    have hfilter : (l₁ ++ b :: l₂).filter (· ∉ b :: blocksFrom vp i (idx + 1) r) =
        (l₁ ++ l₂).filter (· ∉ blocksFrom vp i (idx + 1) r) := by
      have hl := (List.nodup_append.mp (List.nodup_cons.mp hlist.nodup).2).1
      have hb₁ : ∀ c ∈ l₁, c ≠ b := fun c hc =>
        (List.nodup_append.mp hl).2.2 c hc b List.mem_cons_self
      have hb₂ : ∀ c ∈ l₂, c ≠ b := by
        rintro c hc rfl
        exact (List.nodup_cons.mp (List.nodup_append.mp hl).2.1).1 hc
      rw [List.filter_append, List.filter_append, List.filter_cons_of_neg (by simp)]
      congr 1
      · exact List.filter_congr fun c hc => by simp [hb₁ c hc]
      · exact List.filter_congr fun c hc => by simp [hb₂ c hc]
    refine ⟨m', ?_, hfilter ▸ hlist'', fun a ha => ?_⟩
    · rw [Mem.sysFreeLoop]
      refine (does_loadWord hview.words.1).bind ?_
      rw [hview.arena, hview.field_cnt]
      refine (does_loadWord hview.words.2.2).bind ?_
      rw [hview.cnt, if_pos (by omega)]
      refine (hview.does_arena2block (show blockAt vp i idx ∈ _ from hb ▸ hbmem)).bind ?_
      rw [hb]
      refine (Does.assertM _ ?_).bind ((does_listRemove hlist hview.nodes).bind hdoes)
      refine (does_loadWord hview.words.1).bind ?_
      rw [hview.arena, hview.field_list, ← decide_eq_true hbmem]
      exact does_elemFind hlist hview.nodes hlist.length_lt b
    · exact (hframe' a (ha.mono hsub.subset)).trans (hframe a ha)

end OriginOS
