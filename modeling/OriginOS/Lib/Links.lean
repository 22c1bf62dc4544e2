import Mathlib.Data.List.Nodup
import Mathlib.Tactic.Tauto

/-! Doubly linked lists over arbitrary addresses: a memory gives each node the node before it and
the node behind it, and a list is the nodes that are linked, in both directions, between two nodes
that hold no element. -/

namespace OriginOS.Lib

/-- The two links of a node. -/
@[ext] structure Link (α : Type) where
  prev : α
  next : α
deriving DecidableEq, Repr

abbrev Links (α : Type) := α → Link α

namespace Links

variable {α : Type} [DecidableEq α] {m m' : Links α} {x y z e a : α} {l l' : List α}

/-- The nodes `l` are linked between `x` and `y`. -/
def Chain (m : Links α) (x : α) : List α → α → Prop
  | [], y => (m x).next = y ∧ (m y).prev = x
  | z :: l, y => ((m x).next = z ∧ (m z).prev = x) ∧ Chain m z l y

structure Chained (m : Links α) (x : α) (l : List α) (y : α) : Prop where
  chain : Chain m x l y
  nodup : (x :: (l ++ [y])).Nodup

/-- The effect of the insertion of `e` before `y`. -/
def insertBefore (m : Links α) (y e : α) : Links α := fun a =>
  ⟨if a = y then e else if a = e then (m y).prev else (m a).prev,
    if a = e then y else if a = (m y).prev then e else (m a).next⟩

def unlink (m : Links α) (e : α) : Links α := fun a =>
  ⟨if a = (m e).next then (m e).prev else (m a).prev,
    if a = (m e).prev then (m e).next else (m a).next⟩

omit [DecidableEq α] in
/-- A chain depends on the link to the next node of each node but the last, and on the link to the
previous node of each node but the first. -/
theorem Chain.congr (h : Chain m x l y) (hnext : ∀ a ∈ x :: l, (m' a).next = (m a).next)
    (hprev : ∀ a ∈ l ++ [y], (m' a).prev = (m a).prev) : Chain m' x l y := by
  induction l generalizing x with
  | nil =>
    exact ⟨(hnext x List.mem_cons_self).trans h.1, (hprev y List.mem_cons_self).trans h.2⟩
  | cons z l ih =>
    obtain ⟨⟨hxz, hzx⟩, hchain⟩ := h
    refine ⟨⟨?_, ?_⟩, ih hchain ?_ ?_⟩
    · exact (hnext x List.mem_cons_self).trans hxz
    · exact (hprev z List.mem_cons_self).trans hzx
    · exact fun a ha => hnext a (List.mem_cons_of_mem x ha)
    · exact fun a ha => hprev a (List.mem_cons_of_mem z ha)

omit [DecidableEq α] in
theorem chain_append : Chain m x (l ++ e :: l') y ↔ Chain m x l e ∧ Chain m e l' y := by
  induction l generalizing x with
  | nil => rfl
  | cons z l ih => simp only [List.cons_append, Chain, ih, and_assoc]

omit [DecidableEq α] in
theorem Chain.prev_mem (h : Chain m x l y) : (m y).prev ∈ x :: l := by
  induction l generalizing x with
  | nil => exact List.mem_singleton.mpr h.2
  | cons z l ih => exact List.mem_cons_of_mem x (ih h.2)

omit [DecidableEq α] in
theorem Chain.next_mem (h : Chain m x l y) : (m x).next ∈ l ++ [y] := by
  cases l with
  | nil => exact List.mem_singleton.mpr h.1
  | cons z l =>
    rw [h.1.1]
    exact List.mem_cons_self

/-! ### Insertion -/

theorem insertBefore_apply_of_ne (hy : a ≠ y) (he : a ≠ e) (hp : a ≠ (m y).prev) :
    insertBefore m y e a = m a := by
  simp [insertBefore, hy, he, hp]

theorem insertBefore_next_of_ne (he : a ≠ e) (hp : a ≠ (m y).prev) :
    (insertBefore m y e a).next = (m a).next := by
  simp [insertBefore, he, hp]

theorem insertBefore_prev_of_ne (hy : a ≠ y) (he : a ≠ e) :
    (insertBefore m y e a).prev = (m a).prev := by
  simp [insertBefore, hy, he]

theorem Chain.insertBefore (h : Chain m x l y) (hnodup : (x :: (l ++ [y])).Nodup)
    (he : e ∉ x :: (l ++ [y])) : Chain (insertBefore m y e) x (l ++ [e]) y := by
  induction l generalizing x with
  | nil =>
    obtain ⟨-, hprev⟩ := h
    have hxe : x ≠ e := fun heq => he (heq ▸ List.mem_cons_self)
    have hye : y ≠ e := fun heq => he (heq ▸ by simp)
    refine ⟨⟨?_, ?_⟩, ?_, ?_⟩ <;> simp [Links.insertBefore, hprev, hxe, hye.symm]
  | cons z l ih =>
    obtain ⟨⟨hxz, hzx⟩, hchain⟩ := h
    obtain ⟨hx, hrest⟩ := List.nodup_cons.mp hnodup
    have hprev := hchain.prev_mem
    refine ⟨⟨?_, ?_⟩, ih hchain hrest fun hmem => he (List.mem_cons_of_mem x hmem)⟩
    · rw [insertBefore_next_of_ne, hxz]
      · rintro rfl
        exact he List.mem_cons_self
      · rintro rfl
        exact hx (List.mem_append_left _ hprev)
    · rw [insertBefore_prev_of_ne, hzx]
      · rintro rfl
        exact (List.nodup_cons.mp hrest).1 (by simp)
      · rintro rfl
        exact he (by simp)

theorem Chain.insertBefore_behind (hfront : Chain m x l y) (h : Chain m y l' z)
    (hnodup : (x :: (l ++ y :: (l' ++ [z]))).Nodup) (he : e ∉ y :: (l' ++ [z])) :
    Chain (Links.insertBefore m y e) y l' z := by
  have hsplit : (x :: l ++ (y :: (l' ++ [z]))).Nodup := hnodup
  obtain ⟨-, hback, hdisjoint⟩ := List.nodup_append.mp hsplit
  have hsub : ∀ a ∈ y :: l', a ∈ y :: (l' ++ [z]) := by simp; tauto
  refine h.congr (fun a ha => insertBefore_next_of_ne ?_ ?_) fun a ha =>
    insertBefore_prev_of_ne ?_ ?_
  · rintro rfl
    exact he (hsub a ha)
  · exact fun heq => hdisjoint (m y).prev hfront.prev_mem a (hsub a ha) heq.symm
  · rintro rfl
    exact (List.nodup_cons.mp hback).1 ha
  · rintro rfl
    exact he (List.mem_cons_of_mem y ha)

omit [DecidableEq α] in
theorem nodup_insert (hnodup : (x :: (l ++ l' ++ [y])).Nodup) (he : e ∉ x :: (l ++ l' ++ [y])) :
    (x :: (l ++ e :: l' ++ [y])).Nodup := by
  have hperm : (x :: (l ++ e :: l' ++ [y])).Perm (e :: (x :: (l ++ l' ++ [y]))) := by
    have := @List.perm_middle α e (x :: l) (l' ++ [y])
    simpa using this
  exact hperm.nodup_iff.mpr (List.nodup_cons.mpr ⟨he, hnodup⟩)

theorem Chained.append (h : Chained m x l y) (he : e ∉ x :: (l ++ [y])) :
    Chained (insertBefore m y e) x (l ++ [e]) y := by
  refine ⟨h.chain.insertBefore h.nodup he, ?_⟩
  have := @nodup_insert α x y e l [] (by simpa using h.nodup) (by simpa using he)
  simpa using this

theorem Chained.insert {b : α} (h : Chained m x (l ++ b :: l') y)
    (he : e ∉ x :: (l ++ b :: l' ++ [y])) :
    Chained (insertBefore m b e) x (l ++ e :: b :: l') y := by
  obtain ⟨hfront, hback⟩ := chain_append.mp h.chain
  have hnodup : (x :: (l ++ b :: (l' ++ [y]))).Nodup := by simpa using h.nodup
  have hsub : (x :: (l ++ [b])).Sublist (x :: (l ++ b :: (l' ++ [y]))) :=
    List.Sublist.cons_cons x (List.Sublist.append_left (by simp) l)
  have he' : e ∉ x :: (l ++ b :: (l' ++ [y])) := by simpa using he
  have hnew : Chain (Links.insertBefore m b e) x ((l ++ [e]) ++ b :: l') y :=
    chain_append.mpr ⟨hfront.insertBefore (hnodup.sublist hsub) fun hmem => he' (hsub.subset hmem),
      hfront.insertBefore_behind hback hnodup fun hmem =>
        he' (List.mem_cons_of_mem x (List.mem_append_right l hmem))⟩
  exact ⟨by simpa using hnew, nodup_insert h.nodup he⟩

theorem Chained.insertBefore_apply {b : α} (h : Chained m x l y) (hb : b ∈ l ++ [y])
    (he : a ≠ e) (ha : a ∉ x :: (l ++ [y])) : insertBefore m b e a = m a := by
  have hprev : (m b).prev ∈ x :: (l ++ [y]) := by
    rcases List.mem_append.mp hb with hb | hb
    · obtain ⟨l₁, l₂, rfl⟩ := List.append_of_mem hb
      have := (chain_append.mp h.chain).1.prev_mem
      simp only [List.mem_cons, List.mem_append] at this ⊢
      tauto
    · obtain rfl := List.mem_singleton.mp hb
      exact List.mem_append_left [b] h.chain.prev_mem
  refine insertBefore_apply_of_ne ?_ he ?_
  · rintro rfl
    exact ha (List.mem_cons_of_mem x hb)
  · rintro rfl
    exact ha hprev

/-! ### Removal -/

theorem unlink_next_of_ne (hp : a ≠ (m e).prev) : (unlink m e a).next = (m a).next := by
  simp [unlink, hp]

theorem unlink_prev_of_ne (hn : a ≠ (m e).next) : (unlink m e a).prev = (m a).prev := by
  simp [unlink, hn]

theorem Chain.unlink_first (hlink : (m x).next = e ∧ (m e).prev = x) (h : Chain m e l y)
    (hnodup : (x :: e :: (l ++ [y])).Nodup) : Chain (unlink m e) x l y := by
  have hpair : ∀ n, (m e).next = n → (unlink m e x).next = n ∧ (unlink m e n).prev = x := by
    rintro n rfl
    simp [Links.unlink, hlink.2]
  cases l with
  | nil => exact hpair y h.1
  | cons n l =>
    obtain ⟨⟨hn, -⟩, hrest⟩ := h
    refine ⟨hpair n hn, hrest.congr (fun a ha => unlink_next_of_ne ?_) fun a ha =>
      unlink_prev_of_ne ?_⟩
    · rintro rfl
      rw [hlink.2] at ha
      refine (List.nodup_cons.mp hnodup).1 ?_
      simp only [List.mem_cons, List.mem_append] at ha ⊢
      tauto
    · rintro rfl
      have hn' := (List.nodup_cons.mp (List.nodup_cons.mp (List.nodup_cons.mp hnodup).2).2).1
      rw [hn] at ha
      exact hn' ha

theorem Chain.unlink (h : Chain m x (l ++ e :: l') y)
    (hnodup : (x :: (l ++ e :: l' ++ [y])).Nodup) : Chain (unlink m e) x (l ++ l') y := by
  induction l generalizing x with
  | nil => exact Chain.unlink_first h.1 h.2 hnodup
  | cons z l ih =>
    obtain ⟨⟨hxz, hzx⟩, hchain⟩ := h
    obtain ⟨hx, hrest⟩ := List.nodup_cons.mp hnodup
    obtain ⟨hfront, hback⟩ := chain_append.mp hchain
    have hprev := hfront.prev_mem
    have hnext := hback.next_mem
    refine ⟨⟨?_, ?_⟩, ih hchain hrest⟩
    · rw [unlink_next_of_ne, hxz]
      rintro rfl
      exact hx (by simp only [List.mem_cons, List.mem_append] at hprev ⊢; tauto)
    · rw [unlink_prev_of_ne, hzx]
      rintro rfl
      have hz : (m e).next ∉ l ++ e :: l' ++ [y] := (List.nodup_cons.mp hrest).1
      exact hz (by simp only [List.mem_cons, List.mem_append] at hnext ⊢; tauto)

theorem Chained.unlink (h : Chained m x (l ++ e :: l') y) :
    Chained (unlink m e) x (l ++ l') y := by
  refine ⟨h.chain.unlink h.nodup, h.nodup.sublist (List.Sublist.cons_cons x ?_)⟩
  exact List.Sublist.append_right (List.Sublist.append_left (List.sublist_cons_self e l') l) [y]

omit [DecidableEq α] in
theorem Chained.neighbours (h : Chained m x (l ++ e :: l') y) :
    (m e).prev ∈ x :: l ∧ (m e).next ∈ l' ++ [y] ∧ (m e).prev ≠ e := by
  obtain ⟨hfront, hback⟩ := chain_append.mp h.chain
  have hprev := hfront.prev_mem
  refine ⟨hprev, hback.next_mem, fun heq => ?_⟩
  rw [heq] at hprev
  have hnodup : (x :: l ++ e :: (l' ++ [y])).Nodup := by simpa using h.nodup
  exact (List.nodup_append.mp hnodup).2.2 e hprev e List.mem_cons_self rfl

theorem Chained.unlink_apply (h : Chained m x (l ++ e :: l') y)
    (ha : a ∉ x :: (l ++ e :: l' ++ [y])) : Links.unlink m e a = m a := by
  obtain ⟨hprev, hnext, -⟩ := h.neighbours
  refine Link.ext (unlink_prev_of_ne ?_) (unlink_next_of_ne ?_)
  · rintro rfl
    exact ha (by simp only [List.mem_cons, List.mem_append] at hnext ⊢; tauto)
  · rintro rfl
    exact ha (by simp only [List.mem_cons, List.mem_append] at hprev ⊢; tauto)

omit [DecidableEq α] in
theorem Chained.congr (h : Chained m x l y) (hm : ∀ a ∈ x :: (l ++ [y]), m' a = m a) :
    Chained m' x l y := by
  refine ⟨h.chain.congr (fun a ha => ?_) fun a ha => ?_, h.nodup⟩
  · rw [hm a (List.mem_append_left [y] ha)]
  · rw [hm a (List.mem_cons_of_mem x ha)]

end Links

end OriginOS.Lib
