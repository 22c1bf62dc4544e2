import Mathlib.Data.List.Basic
import Mathlib.Logic.Function.Basic

/-! A ring of `n` slots, of which at most `n - 1` are used: `head` is the next slot to fill and
`tail` the next to empty. Its contents are the slots from `tail` up to `head`. -/

namespace OriginOS.Lib

structure Ring (α : Type) where
  buf : Int → α
  head : Int
  tail : Int

namespace Ring

variable {α : Type} {n : Int} {r : Ring α}

def slot (n p i : Int) : Int := if p + i < n then p + i else p + i - n

structure Valid (n : Int) (r : Ring α) : Prop where
  head_nonneg : 0 ≤ r.head
  head_lt : r.head < n
  tail_nonneg : 0 ≤ r.tail
  tail_lt : r.tail < n

def size (n : Int) (r : Ring α) : Nat :=
  (if r.tail ≤ r.head then r.head - r.tail else r.head + n - r.tail).toNat

def contents (n : Int) (r : Ring α) : List α :=
  (List.range (r.size n)).map fun i : Nat => r.buf (slot n r.tail i)

def push (n : Int) (a : α) (r : Ring α) : Ring α :=
  { r with buf := Function.update r.buf r.head a, head := slot n r.head 1 }

def pop (n : Int) (r : Ring α) : Ring α := { r with tail := slot n r.tail 1 }

theorem length_contents (n : Int) (r : Ring α) : (r.contents n).length = r.size n := by
  rw [contents, List.length_map, List.length_range]

theorem size_lt (h : r.Valid n) : (r.size n : Int) < n := by
  have := h.head_nonneg
  have := h.head_lt
  have := h.tail_nonneg
  have := h.tail_lt
  unfold size
  split <;> omega

theorem size_eq_zero (h : r.Valid n) : r.size n = 0 ↔ r.tail = r.head := by
  have := h.head_nonneg
  have := h.head_lt
  have := h.tail_nonneg
  have := h.tail_lt
  unfold size
  split <;> omega

theorem full_iff (h : r.Valid n) : slot n r.head 1 = r.tail ↔ (r.size n : Int) + 1 = n := by
  have := h.head_nonneg
  have := h.head_lt
  have := h.tail_nonneg
  have := h.tail_lt
  unfold size slot
  split <;> split <;> omega

theorem slot_valid (hn : 0 < n) {p : Int} (hp : 0 ≤ p) (hlt : p < n) :
    0 ≤ slot n p 1 ∧ slot n p 1 < n := by
  unfold slot
  split <;> omega

theorem push_valid (h : r.Valid n) (a : α) : (r.push n a).Valid n := by
  have hn := Int.lt_of_le_of_lt h.head_nonneg h.head_lt
  have hslot := slot_valid hn h.head_nonneg h.head_lt
  exact ⟨hslot.1, hslot.2, h.tail_nonneg, h.tail_lt⟩

theorem pop_valid (h : r.Valid n) : (r.pop n).Valid n := by
  have hn := Int.lt_of_le_of_lt h.head_nonneg h.head_lt
  have hslot := slot_valid hn h.tail_nonneg h.tail_lt
  exact ⟨h.head_nonneg, h.head_lt, hslot.1, hslot.2⟩

theorem size_push (h : r.Valid n) (hfull : (r.size n : Int) + 1 < n) (a : α) :
    (r.push n a).size n = r.size n + 1 := by
  have := h.head_nonneg
  have := h.head_lt
  have := h.tail_nonneg
  have := h.tail_lt
  unfold size push slot at *
  simp only
  split at hfull <;> split <;> split <;> omega

theorem size_pop (h : r.Valid n) (hne : r.size n ≠ 0) : (r.pop n).size n + 1 = r.size n := by
  have := h.head_nonneg
  have := h.head_lt
  have := h.tail_nonneg
  have := h.tail_lt
  unfold size pop slot at *
  simp only
  split at hne <;> split <;> split <;> omega

theorem contents_push (h : r.Valid n) (hfull : (r.size n : Int) + 1 < n) (a : α) :
    (r.push n a).contents n = r.contents n ++ [a] := by
  have := h.head_nonneg
  have := h.head_lt
  have := h.tail_nonneg
  have := h.tail_lt
  have hlast : slot n r.tail (r.size n) = r.head := by
    unfold size slot
    split <;> split <;> omega
  have hother : ∀ i : Nat, i < r.size n → slot n r.tail i ≠ r.head := by
    intro i hi
    unfold size at hi
    unfold slot
    split at hi <;> split <;> omega
  unfold contents
  rw [size_push h hfull, List.range_succ, List.map_append, List.map_singleton]
  congr 1
  · apply List.map_congr_left
    intro i hi
    exact Function.update_of_ne (hother i (List.mem_range.mp hi)) a r.buf
  · show [Function.update r.buf r.head a (slot n r.tail (r.size n))] = [a]
    rw [hlast, Function.update_self]

theorem contents_pop (h : r.Valid n) (hne : r.size n ≠ 0) :
    r.contents n = r.buf r.tail :: (r.pop n).contents n := by
  have := h.tail_nonneg
  have := h.tail_lt
  have hsize := size_pop h hne
  have hlt := size_lt h
  have hfirst : slot n r.tail (0 : Nat) = r.tail := by
    unfold slot
    split <;> omega
  have hnext : ∀ i : Nat, i < (r.pop n).size n →
      slot n r.tail (i + 1 : Nat) = slot n (slot n r.tail 1) i := by
    intro i hi
    unfold slot
    split <;> split <;> split <;> omega
  unfold contents
  rw [← hsize, List.range_succ_eq_map, List.map_cons, List.map_map, hfirst]
  congr 1
  apply List.map_congr_left
  intro i hi
  exact congrArg r.buf (hnext i (List.mem_range.mp hi))

end Ring

end OriginOS.Lib
