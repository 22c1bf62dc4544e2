import Mathlib.Data.List.Perm.Subperm
import OriginOS.Lib.Bytes

/-! Doubly linked lists in a byte memory. A node at `x` has the address of the node before it in the
word at `x` and that of the node behind it in the word at `x + 4`; a list lies between two nodes
that hold no element. -/

namespace OriginOS.Lib

variable {mem mem' : Nat → UInt8} {x y e a : Nat} {l l' : List Nat}

def Linked (mem : Nat → UInt8) (x y : Nat) : Prop := load32 mem (x + 4) = y ∧ load32 mem y = x

def Seg (mem : Nat → UInt8) (x : Nat) : List Nat → Nat → Prop
  | [], y => Linked mem x y
  | z :: l, y => Linked mem x z ∧ Seg mem z l y

def NodesApart (x y : Nat) : Prop := x + 8 ≤ y ∨ y + 8 ≤ x

structure Dlist (mem : Nat → UInt8) (x : Nat) (l : List Nat) (y : Nat) : Prop where
  seg : Seg mem x l y
  apart : (x :: (l ++ [y])).Pairwise NodesApart
  small : ∀ z ∈ x :: (l ++ [y]), z < 2 ^ 32

structure OffLinks (x : Nat) (l : List Nat) (y a : Nat) : Prop where
  first : a < x + 4 ∨ x + 8 ≤ a
  inner : ∀ z ∈ l, a < z ∨ z + 8 ≤ a
  last : a < y ∨ y + 4 ≤ a

def insertBefore (mem : Nat → UInt8) (y e : Nat) : Nat → UInt8 :=
  let mem := store32 mem (load32 mem y + 4) e
  let mem := store32 mem e (load32 mem y)
  let mem := store32 mem (e + 4) y
  store32 mem y e

def unlink (mem : Nat → UInt8) (e : Nat) : Nat → UInt8 :=
  let mem := store32 mem (load32 mem e + 4) (load32 mem (e + 4))
  store32 mem (load32 mem (e + 4)) (load32 mem e)

theorem OffLinks.mono (h : OffLinks x l y a) (hsub : l' ⊆ l) : OffLinks x l' y a :=
  ⟨h.first, fun z hz => h.inner z (hsub hz), h.last⟩

theorem NodesApart.symm (h : NodesApart x y) : NodesApart y x := Or.symm h

theorem Linked.congr (h : Linked mem x y) (hx : ∀ b, x + 4 ≤ b → b < x + 8 → mem' b = mem b)
    (hy : ∀ b, y ≤ b → b < y + 4 → mem' b = mem b) : Linked mem' x y :=
  ⟨(load32_congr fun b hb hb' => hx b hb (by omega)).trans h.1, (load32_congr hy).trans h.2⟩

/-- A segment depends on the second word of each node but the last, and on the first word of each
node but the first. -/
theorem Seg.congr (h : Seg mem x l y)
    (hnext : ∀ z ∈ x :: l, ∀ b, z + 4 ≤ b → b < z + 8 → mem' b = mem b)
    (hprev : ∀ z ∈ l ++ [y], ∀ b, z ≤ b → b < z + 4 → mem' b = mem b) : Seg mem' x l y := by
  induction l generalizing x with
  | nil => exact Linked.congr h (hnext x List.mem_cons_self) (hprev y List.mem_cons_self)
  | cons z l ih =>
    obtain ⟨hlink, hseg⟩ := h
    refine ⟨hlink.congr (hnext x List.mem_cons_self) (hprev z List.mem_cons_self), ih hseg ?_ ?_⟩
    · exact fun w hw => hnext w (List.mem_cons_of_mem x hw)
    · exact fun w hw => hprev w (List.mem_cons_of_mem z hw)

theorem seg_append : Seg mem x (l ++ e :: l') y ↔ Seg mem x l e ∧ Seg mem e l' y := by
  induction l generalizing x with
  | nil => rfl
  | cons z l ih => simp only [List.cons_append, Seg, ih, and_assoc]

theorem Seg.prev_mem (h : Seg mem x l y) :
    load32 mem y ∈ x :: l ∧ load32 mem (load32 mem y + 4) = y := by
  induction l generalizing x with
  | nil =>
    obtain ⟨hnext, hprev⟩ := h
    rw [hprev]
    exact ⟨List.mem_cons_self, hnext⟩
  | cons z l ih =>
    obtain ⟨hmem, hnext⟩ := ih h.2
    exact ⟨List.mem_cons_of_mem x hmem, hnext⟩

theorem Seg.next_mem (h : Seg mem x l y) : load32 mem (x + 4) ∈ l ++ [y] := by
  cases l with
  | nil => exact List.mem_singleton.mpr h.1
  | cons z l =>
    rw [h.1.1]
    exact List.mem_cons_self

/-! ### Insertion -/

theorem insertBefore_eq {p : Nat} (hp : load32 mem y = p) (hpy : NodesApart p y) :
    insertBefore mem y e =
      store32 (store32 (store32 (store32 mem (p + 4) e) e p) (e + 4) y) y e := by
  unfold NodesApart at hpy
  simp only [insertBefore, hp]
  rw [load32_store32_of_disjoint (by omega), hp]

theorem insertBefore_apply_of_not {p : Nat} (hp : load32 mem y = p) (hpy : NodesApart p y)
    (hap : a < p + 4 ∨ p + 8 ≤ a) (hae : a < e ∨ e + 8 ≤ a) (hay : a < y ∨ y + 4 ≤ a) :
    insertBefore mem y e a = mem a := by
  rw [insertBefore_eq hp hpy, store32_apply_of_not hay, store32_apply_of_not (by omega),
    store32_apply_of_not (by omega), store32_apply_of_not (by omega)]

theorem linked_insertBefore {p : Nat} (hp : load32 mem y = p) (hpy : NodesApart p y)
    (hpe : NodesApart p e) (hey : NodesApart e y) (hpl : p < 2 ^ 32) (hel : e < 2 ^ 32)
    (hyl : y < 2 ^ 32) :
    Linked (insertBefore mem y e) p e ∧ Linked (insertBefore mem y e) e y := by
  rw [insertBefore_eq hp hpy]
  unfold NodesApart at hpy hpe hey
  refine ⟨⟨?_, ?_⟩, ?_, ?_⟩
  · rw [load32_store32_of_disjoint (by omega), load32_store32_of_disjoint (by omega),
      load32_store32_of_disjoint (by omega), load32_store32_self hel]
  · rw [load32_store32_of_disjoint (by omega), load32_store32_of_disjoint (by omega),
      load32_store32_self hpl]
  · rw [load32_store32_of_disjoint (by omega), load32_store32_self hyl]
  · exact load32_store32_self hel

theorem Seg.insertBefore (h : Seg mem x l y) (hapart : (x :: (l ++ [y])).Pairwise NodesApart)
    (hsmall : ∀ z ∈ x :: (l ++ [y]), z < 2 ^ 32) (he : ∀ z ∈ x :: (l ++ [y]), NodesApart z e)
    (hel : e < 2 ^ 32) : Seg (insertBefore mem y e) x (l ++ [e]) y := by
  induction l generalizing x with
  | nil =>
    obtain ⟨hhead, -⟩ := List.pairwise_cons.mp hapart
    exact linked_insertBefore h.2 (hhead y List.mem_cons_self) (he x List.mem_cons_self)
      (he y (by simp)).symm (hsmall x List.mem_cons_self) hel (hsmall y (by simp))
  | cons z l ih =>
    obtain ⟨hhead, hrest⟩ := List.pairwise_cons.mp hapart
    obtain ⟨hlink, hseg⟩ := h
    refine ⟨?_, ih hseg hrest (fun w hw => hsmall w (List.mem_cons_of_mem x hw))
      fun w hw => he w (List.mem_cons_of_mem x hw)⟩
    -- the insertion writes behind `z` or further on
    obtain ⟨hmem, -⟩ := hseg.prev_mem
    have hpz : load32 mem y = z ∨ NodesApart z (load32 mem y) := by
      rcases List.mem_cons.mp hmem with heq | hmem
      · exact .inl heq
      · exact .inr ((List.pairwise_cons.mp hrest).1 _ (List.mem_append_left _ hmem))
    have hpx := hhead (load32 mem y) (List.mem_append_left _ hmem)
    have hpy : NodesApart (load32 mem y) y := by
      have hlast := List.pairwise_append.mp (show ((z :: l) ++ [y]).Pairwise NodesApart from hrest)
      exact hlast.2.2 _ hmem y List.mem_cons_self
    have hxz := hhead z List.mem_cons_self
    have hxy := hhead y (by simp)
    have hzy := (List.pairwise_cons.mp hrest).1 y (by simp)
    have hxe := he x List.mem_cons_self
    have hze := he z (by simp)
    unfold NodesApart at hpx hxz hxy hzy hxe hze
    refine hlink.congr (fun b hb hb' => ?_) fun b hb hb' => ?_
    · exact insertBefore_apply_of_not rfl hpy (by omega) (by omega) (by omega)
    · refine insertBefore_apply_of_not rfl hpy ?_ (by omega) (by omega)
      rcases hpz with heq | hapz
      · omega
      · unfold NodesApart at hapz
        omega

theorem Dlist.insertBefore (h : Dlist mem x l y) (he : ∀ z ∈ x :: (l ++ [y]), NodesApart z e)
    (hel : e < 2 ^ 32) : Dlist (insertBefore mem y e) x (l ++ [e]) y := by
  have hperm : (x :: (l ++ [e] ++ [y])).Perm (e :: x :: (l ++ [y])) := by
    rw [List.append_assoc]
    exact @List.perm_middle Nat e (x :: l) [y]
  refine ⟨h.seg.insertBefore h.apart h.small he hel, ?_, fun z hz => ?_⟩
  · rw [hperm.pairwise_iff fun h => NodesApart.symm h]
    exact List.pairwise_cons.mpr ⟨fun z hz => (he z hz).symm, h.apart⟩
  · rcases List.mem_cons.mp (hperm.mem_iff.mp hz) with rfl | hz
    · exact hel
    · exact h.small z hz

theorem Dlist.insertBefore_apply (h : Dlist mem x l y) (ha : OffLinks x (e :: l) y a) :
    Lib.insertBefore mem y e a = mem a := by
  obtain ⟨hx, hl, hy⟩ := ha
  obtain ⟨hmem, -⟩ := h.seg.prev_mem
  have hpy : NodesApart (load32 mem y) y :=
    (List.pairwise_append.mp (show ((x :: l) ++ [y]).Pairwise NodesApart from h.apart)).2.2 _ hmem y
      List.mem_cons_self
  have hp : a < load32 mem y + 4 ∨ load32 mem y + 8 ≤ a := by
    rcases List.mem_cons.mp hmem with heq | hmem
    · rw [heq]
      exact hx
    · have hz := hl _ (List.mem_cons_of_mem e hmem)
      omega
  exact insertBefore_apply_of_not rfl hpy hp (hl e List.mem_cons_self) hy

/-! ### Removal -/

theorem unlink_eq {p n : Nat} (hp : load32 mem e = p) (hn : load32 mem (e + 4) = n)
    (hpe : NodesApart p e) : unlink mem e = store32 (store32 mem (p + 4) n) n p := by
  unfold NodesApart at hpe
  simp only [unlink, hp, hn]
  rw [load32_store32_of_disjoint (by omega), load32_store32_of_disjoint (by omega), hp, hn]

theorem Seg.unlink_first (hlink : Linked mem x e) (hseg : Seg mem e l y)
    (hapart : (x :: e :: (l ++ [y])).Pairwise NodesApart)
    (hsmall : ∀ z ∈ x :: e :: (l ++ [y]), z < 2 ^ 32) : Seg (unlink mem e) x l y := by
  obtain ⟨hx, hrest⟩ := List.pairwise_cons.mp hapart
  obtain ⟨-, hrest⟩ := List.pairwise_cons.mp hrest
  have hxe := hx e List.mem_cons_self
  have hxl := hsmall x List.mem_cons_self
  have hpair : ∀ n, load32 mem (e + 4) = n → n ∈ l ++ [y] → Linked (Lib.unlink mem e) x n := by
    intro n hn hmem
    have hxn := hx n (List.mem_cons_of_mem e hmem)
    have hnl := hsmall n (by simpa using .inr (.inr (by simpa using hmem)))
    rw [unlink_eq hlink.2 hn hxe]
    unfold NodesApart at hxn
    refine ⟨?_, load32_store32_self hxl⟩
    rw [load32_store32_of_disjoint (by omega), load32_store32_self hnl]
  cases l with
  | nil => exact hpair y hseg.1 List.mem_cons_self
  | cons n l =>
    obtain ⟨hen, hseg⟩ := hseg
    refine ⟨hpair n hen.1 List.mem_cons_self, ?_⟩
    rw [unlink_eq hlink.2 hen.1 hxe]
    obtain ⟨hn, -⟩ := List.pairwise_cons.mp hrest
    refine hseg.congr (fun z hz b hb hb' => ?_) fun z hz b hb hb' => ?_
    · have hxz := hx z (by simp only [List.mem_cons, List.mem_append] at hz ⊢; tauto)
      have hnz : z = n ∨ NodesApart n z := by
        rcases List.mem_cons.mp hz with heq | hz
        · exact .inl heq
        · exact .inr (hn z (List.mem_append_left _ hz))
      unfold NodesApart at hxz hnz
      rw [store32_apply_of_not (by omega), store32_apply_of_not (by omega)]
    · have hxz := hx z (by simp only [List.mem_cons, List.mem_append] at hz ⊢; tauto)
      have hnz := hn z hz
      unfold NodesApart at hxz hnz
      rw [store32_apply_of_not (by omega), store32_apply_of_not (by omega)]

theorem Seg.unlink (h : Seg mem x (l ++ e :: l') y)
    (hapart : (x :: (l ++ e :: l' ++ [y])).Pairwise NodesApart)
    (hsmall : ∀ z ∈ x :: (l ++ e :: l' ++ [y]), z < 2 ^ 32) :
    Seg (unlink mem e) x (l ++ l') y := by
  induction l generalizing x with
  | nil => exact Seg.unlink_first h.1 h.2 hapart hsmall
  | cons z l ih =>
    obtain ⟨hlink, hseg⟩ := h
    obtain ⟨hx, hrest⟩ := List.pairwise_cons.mp hapart
    refine ⟨?_, ih hseg hrest fun w hw => hsmall w (List.mem_cons_of_mem x hw)⟩
    obtain ⟨hbefore, hbehind⟩ := seg_append.mp hseg
    have hp := hbefore.prev_mem.1
    have hn := hbehind.next_mem
    -- the nodes before and behind `e`
    generalize hpe : load32 mem e = p at hp
    generalize hne : load32 mem (e + 4) = n at hn
    have hsplit : z :: (l ++ e :: l' ++ [y]) = (z :: l) ++ (e :: (l' ++ [y])) := by simp
    simp only [List.cons_append] at hrest
    rw [hsplit] at hrest
    obtain ⟨hfirst, -, hacross⟩ := List.pairwise_append.mp hrest
    have hpapart := hacross p hp e List.mem_cons_self
    have hzn := hacross z List.mem_cons_self n (List.mem_cons_of_mem e hn)
    have hpz : p = z ∨ NodesApart z p := by
      rcases List.mem_cons.mp hp with heq | hmem
      · exact .inl heq
      · exact .inr ((List.pairwise_cons.mp hfirst).1 p hmem)
    have hxmem : ∀ w, w ∈ (z :: l) ++ (e :: (l' ++ [y])) → NodesApart x w := by
      intro w hw
      exact hx w (by simpa using hw)
    have hxp := hxmem p (List.mem_append_left _ hp)
    have hxz := hxmem z (by simp)
    have hxn := hxmem n (List.mem_append_right _ (List.mem_cons_of_mem e hn))
    unfold NodesApart at hzn hpz hxp hxz hxn
    rw [unlink_eq hpe hne hpapart]
    refine hlink.congr (fun b hb hb' => ?_) fun b hb hb' => ?_
    · rw [store32_apply_of_not (by omega), store32_apply_of_not (by omega)]
    · rw [store32_apply_of_not (by omega), store32_apply_of_not (by omega)]

theorem Dlist.unlink (h : Dlist mem x (l ++ e :: l') y) : Dlist (unlink mem e) x (l ++ l') y := by
  have hsub : (x :: (l ++ l' ++ [y])).Sublist (x :: (l ++ e :: l' ++ [y])) := by
    refine List.Sublist.cons_cons x (List.Sublist.append_right ?_ [y])
    exact List.Sublist.append_left (List.sublist_cons_self e l') l
  exact ⟨h.seg.unlink h.apart h.small, h.apart.sublist hsub, fun z hz => h.small z (hsub.subset hz)⟩

theorem Dlist.unlink_apply (h : Dlist mem x (l ++ e :: l') y) (ha : OffLinks x (l ++ e :: l') y a) :
    Lib.unlink mem e a = mem a := by
  obtain ⟨hx, hl, hy⟩ := ha
  obtain ⟨hbefore, hbehind⟩ := seg_append.mp h.seg
  have hp := hbefore.prev_mem.1
  have hn := hbehind.next_mem
  have hsplit : x :: (l ++ e :: l' ++ [y]) = (x :: l) ++ (e :: (l' ++ [y])) := by simp
  have hacross := List.pairwise_append.mp (hsplit ▸ h.apart)
  have hap : a < load32 mem e + 4 ∨ load32 mem e + 8 ≤ a := by
    rcases List.mem_cons.mp hp with heq | hmem
    · rw [heq]
      exact hx
    · have hz := hl _ (List.mem_append_left _ hmem)
      omega
  have han : a < load32 mem (e + 4) ∨ load32 mem (e + 4) + 4 ≤ a := by
    rcases List.mem_append.mp hn with hmem | hmem
    · have hz := hl _ (List.mem_append_right _ (List.mem_cons_of_mem e hmem))
      omega
    · rw [List.mem_singleton.mp hmem]
      exact hy
  rw [unlink_eq rfl rfl (hacross.2.2 _ hp e List.mem_cons_self), store32_apply_of_not han,
    store32_apply_of_not (by omega)]

/-! ### Reading -/

namespace Dlist

theorem congr (h : Dlist mem x l y)
    (hmem : ∀ z ∈ x :: (l ++ [y]), ∀ b, z ≤ b → b < z + 8 → mem' b = mem b) : Dlist mem' x l y := by
  refine ⟨h.seg.congr (fun z hz b hb hb' => ?_) fun z hz b hb hb' => ?_, h.apart, h.small⟩
  · refine hmem z ?_ b (by omega) hb'
    rcases List.mem_cons.mp hz with rfl | hz
    · exact List.mem_cons_self
    · exact List.mem_cons_of_mem x (List.mem_append_left _ hz)
  · exact hmem z (List.mem_cons_of_mem x hz) b hb (by omega)

theorem nodup (h : Dlist mem x l y) : (x :: (l ++ [y])).Nodup := by
  refine h.apart.imp fun {a b} hab heq => ?_
  unfold NodesApart at hab
  omega

theorem length_lt (h : Dlist mem x l y) : l.length < 2 ^ 32 := by
  have hsub : x :: (l ++ [y]) ⊆ List.range (2 ^ 32) := fun z hz => List.mem_range.mpr (h.small z hz)
  have hlen := (h.nodup.subperm hsub).length_le
  rw [List.length_range] at hlen
  simp only [List.length_cons, List.length_append] at hlen
  omega

theorem next_eq_iff (h : Dlist mem x l y) : load32 mem (x + 4) = y ↔ l = [] := by
  cases l with
  | nil => exact iff_of_true h.seg.1 rfl
  | cons z l =>
    refine iff_of_false (fun heq => ?_) (List.cons_ne_nil z l)
    have hz := h.seg.1.1.symm.trans heq
    have hnodup := (List.nodup_cons.mp h.nodup).2
    simp [hz] at hnodup

end Dlist

end OriginOS.Lib
