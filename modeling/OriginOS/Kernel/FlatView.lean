import OriginOS.Kernel.PageData
import OriginOS.Kernel.Heap
import OriginOS.Lib.Dlist

/-! Code that works on data pages sees a flat memory. A data page is one of the running thread's
address space that holds no page directory and no page table; a store to it moves no page, so what
the code does can be said over the bytes at virtual addresses alone. -/

namespace OriginOS

open Lib

/-- The data page `vp` of the running thread lies in the frame `f`. -/
def PageFrame (g : Frames) (s : MemState) (vp f : Nat) : Prop :=
  (∃ k < 256, vp = 0xc0000 + k ∧ f = 4096 * k) ∨
    ∃ sp : Space, sp.Current s ∧ g.own f = some (.page sp vp) ∧ ¬ g.IsDir f

def DataPage (g : Frames) (s : MemState) (vp : Nat) : Prop := ∃ f, PageFrame g s vp f

def DataWord (g : Frames) (s : MemState) (a : Nat) : Prop :=
  DataPage g s (a / 4096) ∧ a % 4096 + 4 ≤ 4096

/-- The bytes of `m` stand at their virtual addresses, in every data page. -/
structure Flat (g : Frames) (s : MemState) (m : Nat → UInt8) : Prop where
  inv : FrameInv g s
  bytes : ∀ vp f, PageFrame g s vp f → ∀ k < 4096, s.phys (f + k) = m (4096 * vp + k)

/-- A byte outside of all data pages of the running thread. -/
def OffData (g : Frames) (s : MemState) (b : Nat) : Prop :=
  ∀ vp f, PageFrame g s vp f → b < f ∨ f + 4096 ≤ b

/-- In a state that differs from `s` in the memory only and shows the bytes `m`, the program `x`
returns `a` and changes only the memory in the data pages, which then show `m'`. -/
def Does {α : Type} (g : Frames) (s : MemState) (x : Mem α) (m : Nat → UInt8) (a : α)
    (m' : Nat → UInt8) : Prop :=
  ∀ mem, Flat g (s.setPhys mem) m →
    ∃ mem', x (s.setPhys mem) = .ok (a, s.setPhys mem') ∧ Flat g (s.setPhys mem') m' ∧
      ∀ b, OffData g s b → mem' b = mem b

variable {g : Frames} {s : MemState} {m m' m'' : Nat → UInt8} {vp f a w : Nat}

namespace PageFrame

theorem setPhys {mem : Nat → UInt8} :
    PageFrame g (s.setPhys mem) vp f ↔ PageFrame g s vp f := Iff.rfl

theorem target (h : PageFrame g s vp f) (hinv : FrameInv g s) :
    target s.phys s.cr3 vp = some f := by
  rcases h with ⟨k, hk, rfl, rfl⟩ | ⟨sp, hcur, hown, -⟩
  · rw [hinv.target_current (Space.has_low s hk) trivial]
    exact hinv.low k hk
  · obtain ⟨hsp, htarget⟩ := hinv.mapped f sp vp hown
    rw [hinv.target_current hsp hcur]
    exact htarget

theorem plain (h : PageFrame g s vp f) (hinv : FrameInv g s) : g.Plain f := by
  rcases h with ⟨k, hk, rfl, rfl⟩ | ⟨sp, -, hown, hdir⟩
  · refine ⟨by omega, fun hd => ?_, fun t i ht => ?_, .inl (by omega)⟩
    · have hb := (hinv.dir_bounds hd).2
      omega
    · have hb := hinv.own_bounds (f := 4096 * k) (by rw [ht]; exact Option.some_ne_none _)
      omega
  · exact hinv.plain_of_page hown hdir

theorem page_unique {vp' : Nat} (h : PageFrame g s vp f) (h' : PageFrame g s vp' f)
    (hinv : FrameInv g s) : vp = vp' := by
  have hlow : ∀ k < 256, g.own (4096 * k) = none := by
    intro k hk
    by_contra hne
    have hb := hinv.own_bounds hne
    omega
  rcases h with ⟨k, hk, rfl, rfl⟩ | ⟨sp, -, hown, -⟩ <;>
    rcases h' with ⟨k', hk', rfl, heq⟩ | ⟨sp', -, hown', -⟩
  · omega
  · exact absurd (hown'.symm.trans (hlow k hk)) (Option.some_ne_none _)
  · rw [heq, hlow k' hk'] at hown
    exact absurd hown.symm (Option.some_ne_none _)
  · have hrole := Option.some.inj (hown.symm.trans hown')
    injection hrole

theorem aligned (h : PageFrame g s vp f) (hinv : FrameInv g s) : f % 4096 = 0 :=
  (h.plain hinv).aligned

theorem apart {vp' f' : Nat} (h : PageFrame g s vp f) (h' : PageFrame g s vp' f')
    (hinv : FrameInv g s) (hne : vp ≠ vp') : f + 4096 ≤ f' ∨ f' + 4096 ≤ f := by
  have hff : f ≠ f' := by
    rintro rfl
    exact hne (h.page_unique h' hinv)
  have hmod := h.aligned hinv
  have hmod' := h'.aligned hinv
  omega

theorem walk (h : PageFrame g s vp f) (hinv : FrameInv g s) {k : Nat} (hk : k < 4096) :
    walk s.phys s.cr3 (4096 * vp + k) = some (f + k) :=
  walk_of_target (h.target hinv) hk

end PageFrame

namespace Flat

theorem load32_eq (h : Flat g s m) (hf : PageFrame g s vp f) {k : Nat} (hk : k + 4 ≤ 4096) :
    load32 s.phys (f + k) = load32 m (4096 * vp + k) := by
  have hb := h.bytes vp f hf
  unfold load32
  rw [hb k (by omega), Nat.add_assoc f, Nat.add_assoc f, Nat.add_assoc f, hb (k + 1) (by omega),
    hb (k + 2) (by omega), hb (k + 3) (by omega)]
  simp only [Nat.add_assoc]

theorem write (h : Flat g s m) (hf : PageFrame g s vp f) {mem : Nat → UInt8}
    (hmem : ∀ b, b < f ∨ f + 4096 ≤ b → mem b = s.phys b)
    (hin : ∀ k < 4096, mem (f + k) = m' (4096 * vp + k))
    (hout : ∀ b, b / 4096 ≠ vp → m' b = m b) : Flat g (s.setPhys mem) m' := by
  refine ⟨h.inv.write (hf.plain h.inv) hmem, fun vp' f' hf' k hk => ?_⟩
  rw [PageFrame.setPhys] at hf'
  by_cases heq : vp' = vp
  · subst heq
    have hff : f' = f := Option.some.inj ((hf'.target h.inv).symm.trans (hf.target h.inv))
    rw [hff]
    exact hin k hk
  · have hapart := hf'.apart hf h.inv heq
    rw [hout _ (by omega)]
    exact (hmem _ (by omega)).trans (h.bytes vp' f' hf' k hk)

end Flat

namespace Does

variable {α β : Type} {x : Mem α} {k : α → Mem β} {b : β} {c : α}

theorem pure (c : α) : Does g s (Pure.pure c) m c m := fun mem h => ⟨mem, rfl, h, fun _ _ => rfl⟩

theorem bind (h : Does g s x m c m') (hk : Does g s (k c) m' b m'') :
    Does g s (x >>= k) m b m'' := by
  intro mem hflat
  obtain ⟨mem', hx, hflat', hoff⟩ := h mem hflat
  obtain ⟨mem'', hkx, hflat'', hoff'⟩ := hk mem' hflat'
  exact ⟨mem'', (bind_of_ok hx).trans hkx, hflat'', fun b hb => (hoff' b hb).trans (hoff b hb)⟩

theorem ok (h : Does g s x m c m') (hflat : Flat g s m) :
    ∃ mem', x s = .ok (c, s.setPhys mem') ∧ Flat g (s.setPhys mem') m' := by
  obtain ⟨mem', hx, hflat', -⟩ := h s.phys hflat
  exact ⟨mem', hx, hflat'⟩

theorem run (h : Does g s x m c m') (hflat : Flat g s m) :
    ∃ mem', x s = .ok (c, s.setPhys mem') ∧ Flat g (s.setPhys mem') m' ∧
      ∀ b, OffData g s b → mem' b = s.phys b := h s.phys hflat

theorem assert {c : Bool} (p : Panic) (hc : c = true) : Does g s (Mem.assert c p) m () m :=
  fun mem h => ⟨mem, Mem.assert_ok p hc, h, fun _ _ => rfl⟩

theorem assertM {condition : Mem Bool} (p : Panic) (h : Does g s condition m true m) :
    Does g s (Mem.assertM condition p) m () m := by
  intro mem hflat
  obtain ⟨mem', hc, hflat', hoff⟩ := h mem hflat
  refine ⟨mem', ?_, hflat', hoff⟩
  have hdebug : (s.setPhys mem).ndebug = false := hflat.inv.debug
  unfold Mem.assertM
  rw [Mem.read_bind, hdebug]
  simp only [Bool.false_eq_true, if_false]
  rw [bind_of_ok hc]
  exact Mem.assert_ok p rfl

end Does

theorem page_split (a : Nat) : 4096 * (a / 4096) + a % 4096 = a := by omega

theorem does_loadWord (ha : DataWord g s a) : Does g s (Mem.loadWord a) m (load32 m a) m := by
  obtain ⟨⟨f, hf⟩, hoff⟩ := ha
  intro mem h
  refine ⟨mem, ?_, h, fun _ _ => rfl⟩
  have hwalk := PageFrame.walk (s := s.setPhys mem) hf h.inv (k := a % 4096) (by omega)
  have hload := h.load32_eq hf hoff
  rw [page_split] at hwalk hload
  rw [Mem.loadWord_ok hwalk, hload]

theorem does_storeWord (ha : DataWord g s a) (w : Nat) :
    Does g s (Mem.storeWord a w) m () (store32 m a w) := by
  obtain ⟨⟨f, hf⟩, hoff⟩ := ha
  intro mem h
  have hwalk := PageFrame.walk (s := s.setPhys mem) hf h.inv (k := a % 4096) (by omega)
  rw [page_split] at hwalk
  refine ⟨store32 mem (f + a % 4096) w, ?_, ?_, fun b hb => ?_⟩
  · rw [Mem.storeWord_ok hwalk]
    rfl
  · refine h.write hf (fun b hb => store32_apply_of_not (by omega)) (fun k hk => ?_) fun b hb => ?_
    · have hbyte := h.bytes _ f hf k hk
      have hsplit := page_split a
      simp only [store32]
      rw [show (s.setPhys mem).phys = mem from rfl] at hbyte
      simp only [show ∀ n, (f + k = f + a % 4096 + n) = (4096 * (a / 4096) + k = a + n) from
        fun n => propext (by omega), show (f + k = f + a % 4096) = (4096 * (a / 4096) + k = a) from
        propext (by omega), hbyte]
    · exact store32_apply_of_not (by omega)
  · have hout := hb _ f hf
    exact store32_apply_of_not (by omega)

theorem does_storeByte (ha : DataPage g s (a / 4096)) (v : UInt8) :
    Does g s (Mem.storeByte a v) m () (Function.update m a v) := by
  obtain ⟨f, hf⟩ := ha
  intro mem h
  have hoff : a % 4096 < 4096 := by omega
  have hwalk := PageFrame.walk (s := s.setPhys mem) hf h.inv hoff
  rw [page_split] at hwalk
  refine ⟨Function.update mem (f + a % 4096) v, ?_, ?_, fun b hb => ?_⟩
  · rw [Mem.storeByte_ok hwalk]
    rfl
  · refine h.write hf (fun b hb => ?_) (fun k hk => ?_) fun b hb => ?_
    · exact Function.update_of_ne (by omega) ..
    · have hbyte : mem (f + k) = _ := h.bytes _ f hf k hk
      have hiff : f + k = f + a % 4096 ↔ 4096 * (a / 4096) + k = a := by omega
      rw [Function.update_apply, Function.update_apply, hbyte]
      simp only [hiff]
    · exact Function.update_of_ne (by rintro rfl; exact hb rfl) ..
  · have hout := hb _ f hf
    exact Function.update_of_ne (by omega) ..

theorem does_memsetLoop (v : UInt8) (n : Nat)
    (ha : ∀ b, a ≤ b → b < a + n → DataPage g s (b / 4096)) :
    Does g s (Mem.memsetLoop v n a) m () (fill m a n v) := by
  induction n generalizing a m with
  | zero =>
    rw [fill_zero]
    exact Does.pure ()
  | succ n ih =>
    rw [← fill_update]
    exact (does_storeByte (ha a (Nat.le_refl a) (by omega)) v).bind
      (ih fun b hb hb' => ha b (by omega) (by omega))

theorem does_memset (v : UInt8) (n : Nat) (hne : a ≠ 0)
    (ha : ∀ b, a ≤ b → b < a + n → DataPage g s (b / 4096)) :
    Does g s (Mem.memset a v n) m () (fill m a n v) :=
  (Does.assert _ (decide_eq_true hne)).bind (does_memsetLoop v n ha)

/-! ### Lists -/

structure DataNode (g : Frames) (s : MemState) (x : Nat) : Prop where
  prev : DataWord g s x
  next : DataWord g s (x + 4)
  bound : x + 8 ≤ 2 ^ 32

theorem Mem.field_eq {ptr off : Nat} (h : ptr + off < 2 ^ 32) : Mem.field ptr off = ptr + off :=
  Nat.mod_eq_of_lt h

theorem DataNode.field_next {x : Nat} (h : DataNode g s x) : Mem.field x 4 = x + 4 := by
  have hbound := h.bound
  exact Mem.field_eq (by omega)

section Lists

variable {x y e : Nat} {l l' : List Nat}

theorem does_listInsertBefore (hy : DataNode g s y) (he : DataNode g s e)
    (hp : DataNode g s (load32 m y)) :
    Does g s (Mem.listInsertBefore y e) m () (insertBefore m y e) := by
  unfold Mem.listInsertBefore insertBefore
  refine (does_loadWord hy.prev).bind ?_
  rw [hp.field_next, he.field_next]
  refine (does_storeWord hp.next e).bind ((does_loadWord hy.prev).bind ?_)
  exact (does_storeWord he.prev _).bind ((does_storeWord he.next y).bind (does_storeWord hy.prev e))

theorem does_listAppend (h : Dlist m x l (x + 8))
    (hnodes : ∀ z ∈ x :: (l ++ [x + 8]), DataNode g s z)
    (he : DataNode g s e) : Does g s (Mem.listAppend x e) m () (insertBefore m (x + 8) e) := by
  have hy := hnodes (x + 8) (by simp)
  have hbound := hy.bound
  unfold Mem.listAppend
  rw [Mem.field_eq (by omega)]
  refine does_listInsertBefore hy he (hnodes _ ?_)
  have hmem := h.seg.prev_mem.1
  simp only [List.mem_cons, List.mem_append] at hmem ⊢
  tauto

theorem does_listRemove (h : Dlist m x (l ++ e :: l') y)
    (hnodes : ∀ z ∈ x :: (l ++ e :: l' ++ [y]), DataNode g s z) :
    Does g s (Mem.listRemove e) m () (unlink m e) := by
  obtain ⟨hbefore, hbehind⟩ := seg_append.mp h.seg
  have hpmem := hbefore.prev_mem.1
  have hnmem := hbehind.next_mem
  have hsplit : x :: (l ++ e :: l' ++ [y]) = (x :: l) ++ (e :: (l' ++ [y])) := by simp
  rw [hsplit] at hnodes
  have he := hnodes e (by simp)
  have hp := hnodes _ (List.mem_append_left _ hpmem)
  have hn := hnodes _ (List.mem_append_right _ (List.mem_cons_of_mem e hnmem))
  -- the first store does not reach the removed node
  have hapart : NodesApart (load32 m e) e :=
    (List.pairwise_append.mp (hsplit ▸ h.apart)).2.2 _ hpmem e List.mem_cons_self
  have hkeep : load32 (store32 m (load32 m e + 4) (load32 m (e + 4))) (e + 4) =
      load32 m (e + 4) := by
    unfold NodesApart at hapart
    exact load32_store32_of_disjoint (by omega)
  unfold Mem.listRemove unlink
  rw [he.field_next]
  refine (does_loadWord he.prev).bind ((does_loadWord he.next).bind ?_)
  rw [hp.field_next]
  refine (does_storeWord hp.next _).bind ((does_loadWord he.next).bind ?_)
  refine (does_loadWord he.prev).bind (does_storeWord ?_ _)
  rw [hkeep]
  exact hn.prev

theorem does_listPop (h : Dlist m x (e :: l) y) (hnodes : ∀ z ∈ x :: (e :: l ++ [y]),
    DataNode g s z) :
    Does g s (Mem.listPop x) m e (unlink m e) := by
  have hx := hnodes x List.mem_cons_self
  unfold Mem.listPop
  rw [hx.field_next]
  refine (does_loadWord hx.next).bind ?_
  rw [h.seg.1.1]
  exact (does_listRemove (l := []) h hnodes).bind (Does.pure e)

theorem does_elemFindLoop {fuel : Nat} (h : Seg m x l y) (hfuel : l.length < fuel)
    (hne : ∀ z ∈ l, z ≠ y) (hnodes : ∀ z ∈ l, DataNode g s z) (e : Nat) :
    Does g s (Mem.elemFindLoop y e fuel (load32 m (x + 4))) m (decide (e ∈ l)) m := by
  induction l generalizing x fuel with
  | nil =>
    obtain ⟨fuel, rfl⟩ := Nat.exists_eq_succ_of_ne_zero (Nat.ne_of_gt hfuel)
    rw [h.1, Mem.elemFindLoop, if_pos rfl]
    exact Does.pure false
  | cons z l ih =>
    obtain ⟨fuel, rfl⟩ := Nat.exists_eq_succ_of_ne_zero (Nat.ne_of_gt (Nat.zero_lt_of_lt hfuel))
    obtain ⟨hlink, hseg⟩ := h
    have hz := hnodes z List.mem_cons_self
    rw [hlink.1, Mem.elemFindLoop, if_neg (hne z List.mem_cons_self)]
    split
    next heq =>
      rw [decide_eq_true (heq ▸ List.mem_cons_self)]
      exact Does.pure true
    next hnot =>
      have hiff : (e ∈ z :: l) = (e ∈ l) := by
        rw [List.mem_cons, or_iff_right (Ne.symm hnot)]
      simp only [hiff]
      rw [hz.field_next]
      refine (does_loadWord hz.next).bind ?_
      exact ih hseg (by simpa using hfuel) (fun w hw => hne w (List.mem_cons_of_mem z hw))
        fun w hw => hnodes w (List.mem_cons_of_mem z hw)

theorem does_elemFind (h : Dlist m x l (x + 8)) (hnodes : ∀ z ∈ x :: (l ++ [x + 8]), DataNode g s z)
    (hlen : l.length < 2 ^ 32) (e : Nat) :
    Does g s (Mem.elemFind x e) m (decide (e ∈ l)) m := by
  have hx := hnodes x List.mem_cons_self
  have hbound := (hnodes (x + 8) (by simp)).bound
  have hnodup := (List.nodup_cons.mp h.nodup).2
  unfold Mem.elemFind
  rw [hx.field_next, Mem.field_eq (by omega)]
  refine (does_loadWord hx.next).bind (does_elemFindLoop h.seg hlen ?_ ?_ e)
  · exact fun z hz => (List.nodup_append.mp hnodup).2.2 z hz (x + 8) List.mem_cons_self
  · exact fun z hz => hnodes z (by simp [hz])

theorem does_listEmpty (h : Dlist m x l (x + 8)) (hx : DataNode g s x) (hy : DataNode g s (x + 8)) :
    Does g s (Mem.listEmpty x) m (decide (l = [])) m := by
  have hbound := hy.bound
  unfold Mem.listEmpty
  rw [hx.field_next, Mem.field_eq (by omega)]
  refine (does_loadWord hx.next).bind ?_
  simp only [h.next_eq_iff]
  exact Does.pure _

end Lists

/-! ### Pages that come and go -/

section Pages

variable {g' : Frames} {s' : MemState} {pf : PoolFlags} {sp : Space} {vp' n : Nat}

theorem Space.current_congr (h : s'.runningThread = s.runningThread) :
    sp.Current s' ↔ sp.Current s := by
  cases sp with
  | kernel => rfl
  | user t =>
    unfold Space.Current
    rw [h]

theorem PageFrame.congr (h : s'.runningThread = s.runningThread) :
    PageFrame g s' vp f ↔ PageFrame g s vp f := by
  unfold PageFrame
  simp only [Space.current_congr h]

theorem PageFrame.own_or_low (h : PageFrame g s vp f) : g.own f ≠ none ∨ f < 0x100000 := by
  rcases h with ⟨k, hk, -, rfl⟩ | ⟨sp, -, hown, -⟩
  · exact .inr (by omega)
  · rw [hown]
    exact .inl (Option.some_ne_none _)

theorem Grew.pageFrame_cases (h : Grew pf sp vp' n g g' s s') (hf : PageFrame g' s' vp f) :
    PageFrame g s vp f ∨ ∃ k < n, vp = vp' + k := by
  rcases hf with hlow | ⟨sp', hcur, hown, hdir⟩
  · exact .inl (.inl hlow)
  · cases hold : g.own f with
    | none =>
      rcases h.fresh f _ hown hold with ⟨k, hk, hrole⟩ | ⟨-, t, i, hrole⟩
      · injection hrole with _ hvp
        exact .inr ⟨k, hk, hvp⟩
      · exact nomatch hrole
    | some r =>
      have hrole := h.own f r hold
      rw [hown] at hrole
      rw [← hrole] at hold
      exact .inl (.inr ⟨sp', h.current.mp hcur, hold, mt h.isDir.mpr hdir⟩)

theorem PageFrame.ne_of_target_none (h : PageFrame g s vp f) (hinv : FrameInv g s)
    (hcur : sp.Current s) (hsp : sp.Has s vp') (hnone : Lib.target s.phys (sp.dir g) vp' = none) :
    vp ≠ vp' := by
  rintro rfl
  have htarget := h.target hinv
  rw [hinv.target_current hsp hcur, hnone] at htarget
  exact nomatch htarget

theorem Flat.grew (h : Flat g s m) (hgrew : Grew pf sp vp' n g g' s s') (hcur : sp.Current s)
    (hsp : ∀ k < n, sp.Has s (vp' + k)) :
    ∃ m₁, Flat g' s' m₁ ∧ ∀ a, a < 4096 * vp' ∨ 4096 * (vp' + n) ≤ a → m₁ a = m a := by
  refine ⟨fun a => if a < 4096 * vp' ∨ 4096 * (vp' + n) ≤ a then m a
    else (target s'.phys s'.cr3 (a / 4096)).elim 0 fun f => s'.phys (f + a % 4096),
    ⟨hgrew.inv, fun vp f hf k hk => ?_⟩, fun a ha => if_pos ha⟩
  rcases hgrew.pageFrame_cases hf with hold | ⟨j, hj, rfl⟩
  · have hout : vp < vp' ∨ vp' + n ≤ vp := by
      by_contra hin
      have hne := hold.ne_of_target_none h.inv hcur (hsp (vp - vp') (by omega))
        (hgrew.was (vp - vp') (by omega))
      omega
    rw [if_pos (by omega)]
    rw [hgrew.bytes f hold.own_or_low (hold.plain h.inv) (f + k) (by omega) (by omega)]
    exact h.bytes vp f hold k hk
  · rw [if_neg (by omega)]
    have hdiv : (4096 * (vp' + j) + k) / 4096 = vp' + j := by omega
    have hmod : (4096 * (vp' + j) + k) % 4096 = k := by omega
    rw [hdiv, hmod, hf.target hgrew.inv]
    rfl

theorem Shrank.pageFrame (h : Shrank sp vp' n g g' s s') (hf : PageFrame g s vp f)
    (hkeep : ∀ k < n, g.own f ≠ some (.page sp (vp' + k))) : PageFrame g' s' vp f := by
  rcases hf with hlow | ⟨sp', hcur, hown, hdir⟩
  · exact .inl hlow
  · refine .inr ⟨sp', h.current.mpr hcur, ?_, mt h.isDir.mp hdir⟩
    rw [h.own f hkeep]
    exact hown

theorem Shrank.own_of (h : Shrank sp vp' n g g' s s') {r : Role} (hf : g'.own f = some r) :
    g.own f = some r ∧ ∀ k < n, g.own f ≠ some (.page sp (vp' + k)) := by
  have hkeep : ∀ k < n, g.own f ≠ some (.page sp (vp' + k)) := by
    intro k hk hpage
    rw [h.freed f k hk hpage] at hf
    exact nomatch hf
  rw [h.own f hkeep] at hf
  exact ⟨hf, hkeep⟩

theorem Flat.shrank (h : Flat g s m) (hshrank : Shrank sp vp' n g g' s s') : Flat g' s' m := by
  refine ⟨hshrank.inv, fun vp f hf k hk => ?_⟩
  have hold : PageFrame g s vp f := by
    rcases hf with hlow | ⟨sp', hcur, hown, hdir⟩
    · exact .inl hlow
    · exact .inr ⟨sp', hshrank.current.mp hcur, (hshrank.own_of hown).1, mt hshrank.isDir.mpr hdir⟩
  rw [hshrank.bytes f (hold.plain h.inv) (f + k) (by omega) (by omega)]
  exact h.bytes vp f hold k hk

/-- What does not touch the memory or the page tables does not change what they show. -/
theorem Flat.congr (h : Flat g s m) (hinv : FrameInv g s') (hphys : s'.phys = s.phys)
    (hrun : s'.runningThread = s.runningThread) : Flat g s' m := by
  refine ⟨hinv, fun vp f hf k hk => ?_⟩
  rw [hphys]
  exact h.bytes vp f ((PageFrame.congr hrun).mp hf) k hk

end Pages

end OriginOS
