import Mathlib.Algebra.Group.Nat.Defs
import OriginOS.Lib.Links
import OriginOS.Lib.System
import Mathlib.Data.List.Perm.Subperm

/-! `lib/kernel/list.c`, on a memory that gives the address of each `struct list_elem` its `prev`
and `next`. The sentinels of the `struct list` at `plist` are the elements at `plist` and at `plist
+ 8`. -/

namespace OriginOS

open Lib

abbrev ListMem := Links UInt32

def ListMem.setPrev (m : ListMem) (elem p : UInt32) : ListMem :=
  Function.update m elem { m elem with prev := p }

def ListMem.setNext (m : ListMem) (elem n : UInt32) : ListMem :=
  Function.update m elem { m elem with next := n }

def listHead (plist : UInt32) : UInt32 := plist

def listTail (plist : UInt32) : UInt32 := plist + 8

def listInit (m : ListMem) (plist : UInt32) : ListMem :=
  let m := m.setPrev (listHead plist) 0
  let m := m.setNext (listHead plist) (listTail plist)
  let m := m.setPrev (listTail plist) (listHead plist)
  m.setNext (listTail plist) 0

def listInsertBefore (m : ListMem) (before elem : UInt32) : ListMem :=
  let m := m.setNext (m before).prev elem
  let m := m.setPrev elem (m before).prev
  let m := m.setNext elem before
  m.setPrev before elem

def listPush (m : ListMem) (plist elem : UInt32) : ListMem :=
  listInsertBefore m (m (listHead plist)).next elem

def listAppend (m : ListMem) (plist elem : UInt32) : ListMem :=
  listInsertBefore m (listTail plist) elem

def listRemove (m : ListMem) (pelem : UInt32) : ListMem :=
  let m := m.setNext (m pelem).prev (m pelem).next
  m.setPrev (m pelem).next (m pelem).prev

def listPop (m : ListMem) (plist : UInt32) : UInt32 × ListMem :=
  let elem := (m (listHead plist)).next
  (elem, listRemove m elem)

def listEmpty (m : ListMem) (plist : UInt32) : Bool := (m (listHead plist)).next = listTail plist

/-- The loop of `elem_find` with at most `fuel` passes. -/
def elemFindLoop (m : ListMem) (plist objElem : UInt32) : Nat → UInt32 → Option Bool
  | 0, _ => none
  | fuel + 1, elem =>
    if elem ≠ listTail plist then
      if elem = objElem then some true else elemFindLoop m plist objElem fuel (m elem).next
    else some false

def elemFind (m : ListMem) (plist objElem : UInt32) (fuel : Nat) : Option Bool :=
  elemFindLoop m plist objElem fuel (m (listHead plist)).next

/-- The loop of `list_traversal` with at most `fuel` passes. -/
def listTraversalLoop (m : ListMem) (plist : UInt32) (func : UInt32 → UInt32 → Bool)
    (arg : UInt32) :
    Nat → UInt32 → Option UInt32
  | 0, _ => none
  | fuel + 1, elem =>
    if elem ≠ listTail plist then
      if func elem arg then some elem else listTraversalLoop m plist func arg fuel (m elem).next
    else some 0

/-- `list_traversal`, for a `func` that only looks at the element. -/
def listTraversal (m : ListMem) (plist : UInt32) (func : UInt32 → UInt32 → Bool) (arg : UInt32)
    (fuel : Nat) : Option UInt32 :=
  if listEmpty m plist then some 0
  else listTraversalLoop m plist func arg fuel (m (listHead plist)).next

/-- The loop of `list_len` with at most `fuel` passes. -/
def listLenLoop (m : ListMem) (plist : UInt32) : Nat → UInt32 → UInt32 → Option UInt32
  | 0, _, _ => none
  | fuel + 1, elem, length =>
    if elem ≠ listTail plist then listLenLoop m plist fuel (m elem).next
      (length + 1) else some length

def listLen (m : ListMem) (plist : UInt32) (fuel : Nat) : Option UInt32 :=
  listLenLoop m plist fuel (m (listHead plist)).next 0

/-- The list at `plist` is the sequence `xs`. -/
def Represents (m : ListMem) (plist : UInt32) (xs : List UInt32) : Prop :=
  Links.Chained m (listHead plist) xs (listTail plist)

/-- The elements and the sentinels of a list. -/
def listNodes (plist : UInt32) (xs : List UInt32) : List UInt32 :=
  listHead plist :: (xs ++ [listTail plist])

/-! ### The writes -/

theorem listInsertBefore_eq (m : ListMem) (before elem : UInt32) :
    listInsertBefore m before elem = Links.insertBefore m before elem := by
  funext a
  unfold listInsertBefore ListMem.setNext ListMem.setPrev Links.insertBefore
  refine Link.ext ?_ ?_
  · simp only [Function.update_apply]
    grind
  · simp only [Function.update_apply]
    grind

theorem listRemove_eq {m : ListMem} {pelem : UInt32} (h : (m pelem).prev ≠ pelem) :
    listRemove m pelem = Links.unlink m pelem := by
  funext a
  unfold listRemove ListMem.setNext ListMem.setPrev Links.unlink
  refine Link.ext ?_ ?_
  · simp only [Function.update_apply]
    grind
  · simp only [Function.update_apply]
    grind

/-- The list at `plist` was `xs` and has become `xs'`, and all other elements keep their links. -/
structure Yields (m m' : ListMem) (plist : UInt32) (xs xs' : List UInt32) : Prop where
  represents : Represents m' plist xs'
  other : ∀ a, a ∉ listNodes plist xs → a ∉ listNodes plist xs' → m' a = m a

section Writes

variable {m : ListMem} {plist e b x : UInt32} {xs ys zs : List UInt32}

theorem listHead_ne_listTail (plist : UInt32) : listHead plist ≠ listTail plist := by
  intro h
  have hcancel := congrArg (· - plist) h
  simp [listHead, listTail, UInt32.add_comm plist] at hcancel

theorem listInit_represents (m : ListMem) (plist : UInt32) :
    Represents (listInit m plist) plist [] := by
  have hne := listHead_ne_listTail plist
  refine ⟨⟨?_, ?_⟩, by simpa using hne⟩
  · simp [listInit, ListMem.setNext, ListMem.setPrev, hne]
  · simp [listInit, ListMem.setNext, ListMem.setPrev]

theorem listInit_other {a : UInt32} (ha : a ∉ listNodes plist []) : listInit m plist a = m a := by
  simp only [listNodes, List.nil_append, List.mem_cons, List.not_mem_nil, or_false, not_or] at ha
  simp [listInit, ListMem.setNext, ListMem.setPrev, ha.1, ha.2]

theorem Represents.insertBefore (h : Represents m plist (ys ++ b :: zs))
    (he : e ∉ listNodes plist (ys ++ b :: zs)) :
    Yields m (listInsertBefore m b e) plist (ys ++ b :: zs) (ys ++ e :: b :: zs) := by
  rw [listInsertBefore_eq]
  refine ⟨Links.Chained.insert h he, fun a ha ha' =>
    Links.Chained.insertBefore_apply h (by simp) ?_ ha⟩
  rintro rfl
  exact ha' (by simp [listNodes])

theorem Represents.append (h : Represents m plist xs) (he : e ∉ listNodes plist xs) :
    Yields m (listAppend m plist e) plist xs (xs ++ [e]) := by
  rw [listAppend, listInsertBefore_eq]
  refine ⟨Links.Chained.append h he, fun a ha ha' =>
    Links.Chained.insertBefore_apply h (by simp) ?_ ha⟩
  rintro rfl
  exact ha' (by simp [listNodes])

/-- To push is to insert before the first element, or before the end of an empty list. -/
theorem Represents.push (h : Represents m plist xs) (he : e ∉ listNodes plist xs) :
    Yields m (listPush m plist e) plist xs (e :: xs) := by
  cases xs with
  | nil =>
    rw [listPush, show (m (listHead plist)).next = listTail plist from h.chain.1]
    exact h.append he
  | cons x xs =>
    rw [listPush, show (m (listHead plist)).next = x from h.chain.1.1]
    exact @Represents.insertBefore m plist e x [] xs h he

theorem Represents.remove (h : Represents m plist (ys ++ x :: zs)) :
    Yields m (listRemove m x) plist (ys ++ x :: zs) (ys ++ zs) := by
  rw [listRemove_eq h.neighbours.2.2]
  exact ⟨Links.Chained.unlink h, fun a ha _ => Links.Chained.unlink_apply h ha⟩

theorem Represents.pop (h : Represents m plist (x :: xs)) :
    (listPop m plist).1 = x ∧ Yields m (listPop m plist).2 plist (x :: xs) xs := by
  have hfirst : (m (listHead plist)).next = x := h.chain.1.1
  refine ⟨hfirst, ?_⟩
  rw [listPop, hfirst]
  exact @Represents.remove m plist x [] xs h

end Writes

/-! ### The loops -/

section Loops

variable {m : ListMem} {plist x : UInt32} {xs : List UInt32} {fuel : Nat}

theorem Represents.nodup (h : Represents m plist xs) : xs.Nodup ∧ listTail plist ∉ xs := by
  have hrest := (List.nodup_cons.mp (Links.Chained.nodup h)).2
  obtain ⟨hxs, -, hdisjoint⟩ := List.nodup_append.mp hrest
  exact ⟨hxs, fun hmem => hdisjoint _ hmem _ List.mem_cons_self rfl⟩

theorem Represents.listEmpty_iff (h : Represents m plist xs) :
    listEmpty m plist = true ↔ xs = [] := by
  rw [listEmpty, decide_eq_true_eq]
  cases xs with
  | nil => exact iff_of_true h.chain.1 rfl
  | cons x xs =>
    refine iff_of_false (fun heq => h.nodup.2 ?_) (List.cons_ne_nil x xs)
    rw [← heq, show (m (listHead plist)).next = x from h.chain.1.1]
    exact List.mem_cons_self

theorem elemFindLoop_eq (objElem : UInt32) (h : Links.Chain m x xs (listTail plist))
    (ht : listTail plist ∉ xs) (hfuel : xs.length < fuel) :
    elemFindLoop m plist objElem fuel (m x).next = some (decide (objElem ∈ xs)) := by
  induction xs generalizing x fuel with
  | nil =>
    obtain ⟨fuel, rfl⟩ : ∃ n, fuel = n + 1 := ⟨fuel - 1, by rw [List.length_nil] at hfuel; omega⟩
    rw [h.1, elemFindLoop, if_neg (by simp)]
    rfl
  | cons z xs ih =>
    rw [List.length_cons] at hfuel
    obtain ⟨fuel, rfl⟩ : ∃ n, fuel = n + 1 := ⟨fuel - 1, by omega⟩
    obtain ⟨hz, ht⟩ := List.ne_and_not_mem_of_not_mem_cons ht
    rw [h.1.1, elemFindLoop, if_pos hz.symm]
    by_cases hobj : z = objElem
    · simp [hobj]
    · rw [if_neg hobj, ih h.2 ht (by omega)]
      simp [Ne.symm hobj]

theorem listTraversalLoop_eq (func : UInt32 → UInt32 → Bool) (arg : UInt32)
    (h : Links.Chain m x xs (listTail plist)) (ht : listTail plist ∉ xs)
    (hfuel : xs.length < fuel) :
    listTraversalLoop m plist func arg fuel (m x).next =
      some ((xs.find? fun elem => func elem arg).getD 0) := by
  induction xs generalizing x fuel with
  | nil =>
    obtain ⟨fuel, rfl⟩ : ∃ n, fuel = n + 1 := ⟨fuel - 1, by rw [List.length_nil] at hfuel; omega⟩
    rw [h.1, listTraversalLoop, if_neg (by simp)]
    rfl
  | cons z xs ih =>
    rw [List.length_cons] at hfuel
    obtain ⟨fuel, rfl⟩ : ∃ n, fuel = n + 1 := ⟨fuel - 1, by omega⟩
    obtain ⟨hz, ht⟩ := List.ne_and_not_mem_of_not_mem_cons ht
    rw [h.1.1, listTraversalLoop, if_pos hz.symm, List.find?_cons]
    cases hfunc : func z arg with
    | true => rfl
    | false => exact ih h.2 ht (by omega)

theorem listLenLoop_eq (length : UInt32) (h : Links.Chain m x xs (listTail plist))
    (ht : listTail plist ∉ xs) (hfuel : xs.length < fuel) :
    listLenLoop m plist fuel (m x).next length = some (length + UInt32.ofNat xs.length) := by
  induction xs generalizing x fuel length with
  | nil =>
    obtain ⟨fuel, rfl⟩ : ∃ n, fuel = n + 1 := ⟨fuel - 1, by rw [List.length_nil] at hfuel; omega⟩
    rw [h.1, listLenLoop, if_neg (by simp)]
    simp
  | cons z xs ih =>
    rw [List.length_cons] at hfuel ⊢
    obtain ⟨fuel, rfl⟩ : ∃ n, fuel = n + 1 := ⟨fuel - 1, by omega⟩
    obtain ⟨hz, ht⟩ := List.ne_and_not_mem_of_not_mem_cons ht
    rw [h.1.1, listLenLoop, if_pos hz.symm, ih (length + 1) h.2 ht (by omega), UInt32.ofNat_add,
      UInt32.add_assoc, UInt32.add_comm 1]
    rfl

theorem Represents.length_lt (h : Represents m plist xs) : xs.length < 2 ^ 32 := by
  have hinj : Function.Injective UInt32.toNat := fun a b hab => UInt32.toNat_inj.mp hab
  have hnodup := (Links.Chained.nodup h).map hinj
  have hsub : (listHead plist :: (xs ++ [listTail plist])).map UInt32.toNat ⊆ List.range
    (2 ^ 32) := by
    intro n hn
    obtain ⟨a, -, rfl⟩ := List.mem_map.mp hn
    exact List.mem_range.mpr a.toNat_lt
  have hlen := (hnodup.subperm hsub).length_le
  simp only [List.length_map, List.length_cons, List.length_append, List.length_range] at hlen
  omega

end Loops

structure ListRefines (m : ListMem) (plist : UInt32) (xs : List UInt32) : Prop where
  push : ∀ e, e ∉ listNodes plist xs → Yields m (listPush m plist e) plist xs (e :: xs)
  append : ∀ e, e ∉ listNodes plist xs → Yields m (listAppend m plist e) plist xs (xs ++ [e])
  insertBefore : ∀ ys b zs e, xs = ys ++ b :: zs → e ∉ listNodes plist xs →
    Yields m (listInsertBefore m b e) plist xs (ys ++ e :: b :: zs)
  remove : ∀ ys x zs, xs = ys ++ x :: zs → Yields m (listRemove m x) plist xs (ys ++ zs)
  pop : ∀ x zs, xs = x :: zs → (listPop m plist).1 = x ∧ Yields m (listPop m plist).2 plist xs zs
  empty : listEmpty m plist = true ↔ xs = []
  len : ∃ n, ∀ fuel ≥ n, ∃ length, listLen m plist fuel = some length ∧ length.toNat = xs.length
  find : ∃ n, ∀ fuel ≥ n, ∀ e, elemFind m plist e fuel = some (decide (e ∈ xs))
  traversal : ∃ n, ∀ fuel ≥ n, ∀ func arg, listTraversal m plist func arg fuel =
    some ((xs.find? fun elem => func elem arg).getD 0)

theorem Represents.refines {m : ListMem} {plist : UInt32} {xs : List UInt32}
    (h : Represents m plist xs) : ListRefines m plist xs where
  push e he := h.push he
  append e he := h.append he
  insertBefore ys b zs e hxs he := by
    subst hxs
    exact Represents.insertBefore h he
  remove ys x zs hxs := by
    subst hxs
    exact Represents.remove h
  pop x zs hxs := by
    subst hxs
    exact Represents.pop h
  empty := h.listEmpty_iff
  len := by
    refine ⟨xs.length + 1, fun fuel hfuel => ⟨_, listLenLoop_eq 0 h.chain h.nodup.2 (by omega), ?_⟩⟩
    rw [UInt32.zero_add]
    exact UInt32.toNat_ofNat_of_lt' h.length_lt
  find := ⟨xs.length + 1, fun fuel hfuel e => elemFindLoop_eq e h.chain h.nodup.2 (by omega)⟩
  traversal := by
    refine ⟨xs.length + 1, fun fuel hfuel func arg => ?_⟩
    unfold listTraversal
    split
    · next hempty =>
      rw [h.listEmpty_iff.mp hempty]
      rfl
    · exact listTraversalLoop_eq func arg h.chain h.nodup.2 (by omega)

/-! ### Several lists -/

/-- The lists that have been initialised, and the sequences they are to represent. -/
structure ListWorld where
  links : ListMem
  lists : List UInt32
  seqs : UInt32 → List UInt32

/-- The calls that change lists. `list_insert_before` and `list_remove` are given elements only;
here they also name the list that the element is in. -/
inductive ListOp where
  | init (plist : UInt32)
  | push (plist elem : UInt32)
  | append (plist elem : UInt32)
  | insertBefore (plist before elem : UInt32)
  | remove (plist pelem : UInt32)
  | pop (plist : UInt32)

def putBefore (b e : UInt32) : List UInt32 → List UInt32
  | [] => []
  | x :: xs => if x = b then e :: x :: xs else x :: putBefore b e xs

namespace ListWorld

/-- The element is in no list and no sentinel. -/
def Free (w : ListWorld) (elem : UInt32) : Prop := ∀ l ∈ w.lists, elem ∉ listNodes l (w.seqs l)

/-- The calls whose arguments are as they are to be. -/
def Admits (w : ListWorld) : ListOp → Prop
  | .init plist => ∀ l ∈ w.lists, l ≠ plist → ∀ a ∈ listNodes plist [], a ∉ listNodes l (w.seqs l)
  | .push plist elem => plist ∈ w.lists ∧ w.Free elem
  | .append plist elem => plist ∈ w.lists ∧ w.Free elem
  | .insertBefore plist before elem => plist ∈ w.lists ∧ before ∈ w.seqs plist ∧ w.Free elem
  | .remove plist pelem => plist ∈ w.lists ∧ pelem ∈ w.seqs plist
  | .pop plist => plist ∈ w.lists ∧ w.seqs plist ≠ []

/-- The list at `plist` becomes `xs`, by writes that lead to `m`. -/
def become (w : ListWorld) (plist : UInt32) (m : ListMem) (xs : List UInt32) : ListWorld :=
  { w with links := m, seqs := Function.update w.seqs plist xs }

/-- The call changes the links as `list.c` does, and the sequences as it is to do. -/
def exec (w : ListWorld) : ListOp → ListWorld
  | .init plist =>
    { w.become plist (listInit w.links plist) [] with lists := plist :: w.lists }
  | .push plist elem => w.become plist (listPush w.links plist elem) (elem :: w.seqs plist)
  | .append plist elem => w.become plist (listAppend w.links plist elem) (w.seqs plist ++ [elem])
  | .insertBefore plist before elem =>
    w.become plist (listInsertBefore w.links before elem) (putBefore before elem (w.seqs plist))
  | .remove plist pelem => w.become plist (listRemove w.links pelem) ((w.seqs plist).erase pelem)
  | .pop plist => w.become plist (listPop w.links plist).2 (w.seqs plist).tail

/-- Every list represents its sequence, and no two lists share an element or a sentinel. -/
structure WellFormed (w : ListWorld) : Prop where
  represents : ∀ l ∈ w.lists, Represents w.links l (w.seqs l)
  apart : ∀ l ∈ w.lists, ∀ l' ∈ w.lists, l ≠ l' →
    ∀ a ∈ listNodes l (w.seqs l), a ∉ listNodes l' (w.seqs l')

end ListWorld

/-- The system of lists: at first there is none. -/
def listSystem : System ListWorld ListOp Empty where
  init w := w.lists = []
  guard w op := w.Admits op
  exec op w := .ok (w.exec op)

namespace ListWorld

variable {w : ListWorld} {plist elem : UInt32} {m : ListMem} {xs : List UInt32}

/-- A list that becomes another one, of its own elements and free ones, is still apart from the
rest. -/
theorem WellFormed.become (h : w.WellFormed) (hl : plist ∈ w.lists)
    (hy : Yields w.links m plist (w.seqs plist) xs)
    (hnew : ∀ a ∈ xs, a ∈ w.seqs plist ∨ w.Free a) : (w.become plist m xs).WellFormed := by
  have hother : ∀ l ∈ w.lists, l ≠ plist → ∀ a ∈ listNodes plist xs,
    a ∉ listNodes l (w.seqs l) := by
    intro l hmem hne a ha
    have hold : a ∈ listNodes plist (w.seqs plist) ∨ w.Free a := by
      simp only [listNodes, List.mem_cons, List.mem_append] at ha ⊢
      rcases ha with rfl | ha | ha
      · exact .inl (.inl rfl)
      · rcases hnew a ha with ha | ha
        · exact .inl (.inr (.inl ha))
        · exact .inr ha
      · exact .inl (.inr (.inr ha))
    rcases hold with hold | hfree
    · exact h.apart plist hl l hmem (Ne.symm hne) a hold
    · exact hfree l hmem
  refine ⟨fun l hmem => ?_, fun l hmem l' hmem' hne a ha => ?_⟩
  · by_cases hlist : l = plist
    · subst hlist
      simpa [ListWorld.become] using hy.represents
    · simp only [ListWorld.become, Function.update_of_ne hlist]
      refine Links.Chained.congr (h.represents l hmem) fun a ha => hy.other a ?_ ?_
      · exact h.apart l hmem plist hl hlist a ha
      · exact fun hin => hother l hmem hlist a hin ha
  · simp only [ListWorld.become] at hmem hmem' ha ⊢
    by_cases hlist : l = plist
    · subst hlist
      rw [Function.update_self] at ha
      rw [Function.update_of_ne (Ne.symm hne)]
      exact hother l' hmem' (Ne.symm hne) a ha
    · rw [Function.update_of_ne hlist] at ha
      by_cases hlist' : l' = plist
      · subst hlist'
        rw [Function.update_self]
        exact fun hin => hother l hmem hlist a hin ha
      · rw [Function.update_of_ne hlist']
        exact h.apart l hmem l' hmem' hne a ha

end ListWorld

theorem putBefore_append {b e : UInt32} {ys : List UInt32} (zs : List UInt32) (hb : b ∉ ys) :
    putBefore b e (ys ++ b :: zs) = ys ++ e :: b :: zs := by
  induction ys with
  | nil => simp [putBefore]
  | cons y ys ih =>
    obtain ⟨hy, hb⟩ := List.ne_and_not_mem_of_not_mem_cons hb
    rw [List.cons_append, putBefore, if_neg (Ne.symm hy), ih hb, List.cons_append]

theorem Represents.split {m : ListMem} {plist x : UInt32} {xs : List UInt32}
    (h : Represents m plist xs) (hx : x ∈ xs) : ∃ ys zs, xs = ys ++ x :: zs ∧ x ∉ ys := by
  obtain ⟨ys, zs, rfl⟩ := List.append_of_mem hx
  refine ⟨ys, zs, rfl, fun hmem => ?_⟩
  exact (List.nodup_append.mp h.nodup.1).2.2 x hmem x List.mem_cons_self rfl

namespace ListWorld

variable {w : ListWorld}

theorem WellFormed.init (h : w.WellFormed) {plist : UInt32} (hadm : w.Admits (.init plist)) :
    (w.exec (.init plist)).WellFormed := by
  refine ⟨fun l hmem => ?_, fun l hmem l' hmem' hne a ha => ?_⟩
  · by_cases hlist : l = plist
    · subst hlist
      simpa [ListWorld.exec, ListWorld.become] using listInit_represents w.links l
    · have hold := (List.mem_cons.mp hmem).resolve_left hlist
      simp only [ListWorld.exec, ListWorld.become, Function.update_of_ne hlist]
      refine Links.Chained.congr (h.represents l hold) fun a ha => listInit_other fun hin => ?_
      exact hadm l hold hlist a hin ha
  · simp only [ListWorld.exec, ListWorld.become] at hmem hmem' ha ⊢
    by_cases hlist : l = plist
    · subst hlist
      have hold := (List.mem_cons.mp hmem').resolve_left (Ne.symm hne)
      rw [Function.update_self] at ha
      rw [Function.update_of_ne (Ne.symm hne)]
      exact hadm l' hold (Ne.symm hne) a ha
    · have hold := (List.mem_cons.mp hmem).resolve_left hlist
      rw [Function.update_of_ne hlist] at ha
      by_cases hlist' : l' = plist
      · subst hlist'
        rw [Function.update_self]
        exact fun hin => hadm l hold hlist a hin ha
      · rw [Function.update_of_ne hlist']
        exact h.apart l hold l' ((List.mem_cons.mp hmem').resolve_left hlist') hne a ha

theorem WellFormed.exec (h : w.WellFormed) {op : ListOp} (hadm : w.Admits op) :
    (w.exec op).WellFormed := by
  cases op with
  | init plist => exact h.init hadm
  | push plist elem =>
    obtain ⟨hl, hfree⟩ := hadm
    refine h.become hl ((h.represents plist hl).push (hfree plist hl)) fun a ha => ?_
    rcases List.mem_cons.mp ha with rfl | ha
    · exact .inr hfree
    · exact .inl ha
  | append plist elem =>
    obtain ⟨hl, hfree⟩ := hadm
    refine h.become hl ((h.represents plist hl).append (hfree plist hl)) fun a ha => ?_
    rcases List.mem_append.mp ha with ha | ha
    · exact .inl ha
    · exact .inr (List.mem_singleton.mp ha ▸ hfree)
  | insertBefore plist before elem =>
    obtain ⟨hl, hb, hfree⟩ := hadm
    have hrep := h.represents plist hl
    obtain ⟨ys, zs, hxs, hys⟩ := hrep.split hb
    have hy := hrep.refines.insertBefore ys before zs elem hxs (hfree plist hl)
    rw [← putBefore_append zs hys, ← hxs] at hy
    refine h.become hl hy fun a ha => ?_
    rw [hxs, putBefore_append zs hys] at ha
    rw [hxs]
    rcases List.mem_append.mp ha with ha | ha
    · exact .inl (List.mem_append_left _ ha)
    · rcases List.mem_cons.mp ha with rfl | ha
      · exact .inr hfree
      · exact .inl (List.mem_append_right _ ha)
  | remove plist pelem =>
    obtain ⟨hl, hx⟩ := hadm
    have hrep := h.represents plist hl
    obtain ⟨ys, zs, hxs, hys⟩ := hrep.split hx
    have hy := hrep.refines.remove ys pelem zs hxs
    have herase : (w.seqs plist).erase pelem = ys ++ zs := by
      rw [hxs, List.erase_append_right _ hys, List.erase_cons_head]
    rw [← herase] at hy
    exact h.become hl hy fun a ha => .inl (List.mem_of_mem_erase ha)
  | pop plist =>
    obtain ⟨hl, hne⟩ := hadm
    obtain ⟨x, xs, hxs⟩ := List.exists_cons_of_ne_nil hne
    have hy := ((h.represents plist hl).refines.pop x xs hxs).2
    refine h.become hl (by rwa [hxs, List.tail_cons, ← hxs]) fun a ha => .inl ?_
    exact List.mem_of_mem_tail ha

theorem wellFormed_of_reachable (h : listSystem.Reachable w) : w.WellFormed := by
  refine h.invariant (fun w hinit => ?_) fun w op w' hw step => ?_
  · have hnone : w.lists = [] := hinit
    constructor <;> simp [hnone]
  · obtain rfl : w' = w.exec op := step.eq_of_ok rfl
    exact hw.exec step.1

end ListWorld

/-- `list.c` refines sequences: each operation on a list that represents a sequence does what it is
to do with the sequence and leaves every other element alone, and any calls on several lists keep
all of them well formed. -/
theorem list_refinement :
    (∀ m plist, Represents (listInit m plist) plist [] ∧
      ∀ a, a ∉ listNodes plist [] → listInit m plist a = m a) ∧
    (∀ m plist xs, Represents m plist xs → ListRefines m plist xs) ∧
    ∀ w, listSystem.Reachable w → w.WellFormed :=
  ⟨fun m plist => ⟨listInit_represents m plist, fun _ ha => listInit_other ha⟩,
    fun _ _ _ h => h.refines, fun _ h => ListWorld.wellFormed_of_reachable h⟩

/-- A list with two elements, and its first element after the second one has been pushed. -/
theorem list_refinement_push :
    Represents (listPush (listPush (listInit (fun _ => ⟨0, 0⟩) 0x1000) 0x1000 0x2000) 0x1000 0x3000)
      0x1000 [0x3000, 0x2000] := by
  obtain ⟨hinit, hrefines, -⟩ := list_refinement
  have hone := ((hrefines _ _ _ (hinit (fun _ => ⟨0, 0⟩) 0x1000).1).push 0x2000
    (by decide)).represents
  exact ((hrefines _ _ _ hone).push 0x3000 (by decide)).represents

end OriginOS
