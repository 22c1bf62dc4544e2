import Mathlib.Data.Nat.Digits.Defs

/-! Numerals of numbers in bytes, texts that end with a 0 in a byte memory, and texts written to
such a memory. -/

namespace OriginOS.Lib

/-! ### Numerals -/

/-- The digits 0 to 9, and A, B, C and so on. -/
def digitByte (d : Nat) : UInt8 := UInt8.ofNat (if d < 10 then d + 48 else d - 10 + 65)

def digitValue (c : UInt8) : Nat := if c.toNat < 65 then c.toNat - 48 else c.toNat - 65 + 10

def numeral (base n : Nat) : List UInt8 :=
  if n = 0 then [digitByte 0] else ((Nat.digits base n).map digitByte).reverse

def textValue (base : Nat) (text : List UInt8) : Nat :=
  text.foldl (fun v c => base * v + digitValue c) 0

/-- A text is the numeral of a number: it is made of digits, has no leading zeros, and stands for
the number. -/
structure IsNumeral (base n : Nat) (text : List UInt8) : Prop where
  digits : ∀ c ∈ text, ∃ d < base, c = digitByte d
  canonical : text.head? = some (digitByte 0) → text = [digitByte 0]
  nonempty : text ≠ []
  value : textValue base text = n

section Numeral

variable {base n : Nat}

theorem numeral_eq (hbase : 1 < base) (n : Nat) : numeral base n =
    (if n / base ≠ 0 then numeral base (n / base) else []) ++ [digitByte (n % base)] := by
  rcases Nat.eq_zero_or_pos n with rfl | hn
  · simp [numeral]
  · rw [numeral, if_neg (by omega), Nat.digits_def' hbase hn, List.map_cons, List.reverse_cons]
    by_cases hdiv : n / base = 0
    · simp [hdiv]
    · rw [if_pos hdiv, numeral, if_neg hdiv]

theorem numeral_ne_nil (hbase : 1 < base) (n : Nat) : numeral base n ≠ [] := by
  rw [numeral_eq hbase]
  simp

theorem numeral_head (hbase : 1 < base) (hmax : base ≤ 36) (hn : 0 < n) :
    (numeral base n).head? ≠ some (digitByte 0) := by
  have hdigit : ∀ d < 36, digitByte d = digitByte 0 → d = 0 := by decide
  induction n using Nat.strong_induction_on with
  | _ n ih =>
    rw [numeral_eq hbase]
    by_cases hdiv : n / base = 0
    · have hlt : n < base := (Nat.div_eq_zero_iff.mp hdiv).resolve_left (by omega)
      rw [if_neg (not_not_intro hdiv), List.nil_append, List.head?_cons, Nat.mod_eq_of_lt hlt]
      intro heq
      have := hdigit n (by omega) (Option.some.inj heq)
      omega
    · have hrest := ih (n / base) (Nat.div_lt_self hn hbase) (Nat.pos_of_ne_zero hdiv)
      obtain ⟨c, text, htext⟩ := List.exists_cons_of_ne_nil (numeral_ne_nil hbase (n / base))
      rw [if_pos hdiv, htext]
      rwa [htext] at hrest

theorem isNumeral_numeral (hbase : 1 < base) (hmax : base ≤ 36) (n : Nat) :
    IsNumeral base n (numeral base n) := by
  refine ⟨?_, fun hhead => ?_, numeral_ne_nil hbase n, ?_⟩
  · induction n using Nat.strong_induction_on with
    | _ n ih =>
      intro c hc
      rw [numeral_eq hbase, List.mem_append, List.mem_singleton] at hc
      rcases hc with hc | rfl
      · split at hc
        · next hdiv =>
          have hn : 0 < n := Nat.pos_of_ne_zero fun h => hdiv (by rw [h, Nat.zero_div])
          exact ih (n / base) (Nat.div_lt_self hn hbase) c hc
        · cases hc
      · exact ⟨n % base, Nat.mod_lt _ (by omega), rfl⟩
  · rcases Nat.eq_zero_or_pos n with rfl | hn
    · rfl
    · exact absurd hhead (numeral_head hbase hmax hn)
  · have hdigit : ∀ d < 36, digitValue (digitByte d) = d := by decide
    induction n using Nat.strong_induction_on with
    | _ n ih =>
      have hmod := Nat.mod_lt n (show 0 < base by omega)
      rw [numeral_eq hbase, textValue, List.foldl_append, List.foldl_cons, List.foldl_nil,
        hdigit _ (by omega)]
      by_cases hdiv : n / base = 0
      · rw [if_neg (not_not_intro hdiv), List.foldl_nil, Nat.mul_zero, Nat.zero_add]
        exact Nat.mod_eq_of_lt ((Nat.div_eq_zero_iff.mp hdiv).resolve_left (by omega))
      · have hn : 0 < n := Nat.pos_of_ne_zero fun h => hdiv (by rw [h, Nat.zero_div])
        have hrest : textValue base (numeral base (n / base)) = n / base :=
          ih (n / base) (Nat.div_lt_self hn hbase)
        rw [if_pos hdiv, ← textValue, hrest]
        exact Nat.div_add_mod n base

theorem numeral_ne_zero (hbase : 1 < base) (hmax : base ≤ 36) (n : Nat) :
    ∀ c ∈ numeral base n, c ≠ 0 := by
  have hdigit : ∀ d < 36, digitByte d ≠ 0 := by decide
  intro c hc
  obtain ⟨d, hd, rfl⟩ := (isNumeral_numeral hbase hmax n).digits c hc
  exact hdigit d (by omega)

end Numeral

/-! ### Digits with zeros at the front -/

/-- The last `k` digits of a number, the highest first. -/
def lastDigits (base k n : Nat) : List Nat :=
  (List.range k).map fun i => n / base ^ (k - 1 - i) % base

/-- A text without the zeros at its front, or a single zero. -/
def skipZeros : List UInt8 → List UInt8
  | [] => [digitByte 0]
  | c :: text => if c = digitByte 0 then skipZeros text else c :: text

section LastDigits

variable {base k n : Nat}

theorem lastDigits_succ (base k n : Nat) :
    lastDigits base (k + 1) n = lastDigits base k (n / base) ++ [n % base] := by
  rw [lastDigits, List.range_succ, List.map_append, List.map_singleton]
  congr 1
  · apply List.map_congr_left
    intro i hi
    have hi := List.mem_range.mp hi
    rw [Nat.div_div_eq_div_mul, ← Nat.pow_succ', show k + 1 - 1 - i = k - 1 - i + 1 by omega]
  · rw [show k + 1 - 1 - k = 0 by omega, Nat.pow_zero, Nat.div_one]

theorem lastDigits_lt (hbase : 1 < base) : ∀ d ∈ lastDigits base k n, d < base := by
  intro d hd
  obtain ⟨i, -, rfl⟩ := List.mem_map.mp hd
  exact Nat.mod_lt _ (by omega)

/-- If there is room for all digits, those that are not zeros at the front are all digits. -/
theorem dropWhile_lastDigits (hbase : 1 < base) (h : n < base ^ k) :
    (lastDigits base k n).dropWhile (· = 0) = (Nat.digits base n).reverse := by
  induction k generalizing n with
  | zero =>
    obtain rfl : n = 0 := Nat.lt_one_iff.mp h
    simp [lastDigits]
  | succ k ih =>
    have hdiv : n / base < base ^ k :=
      (Nat.div_lt_iff_lt_mul (by omega)).mpr (by rwa [← Nat.pow_succ])
    rw [lastDigits_succ, List.dropWhile_append, ih hdiv]
    rcases Nat.eq_zero_or_pos n with rfl | hn
    · simp
    rw [Nat.digits_def' hbase hn, List.reverse_cons]
    by_cases hzero : n / base = 0
    · have hlt : n < base := (Nat.div_eq_zero_iff.mp hzero).resolve_left (by omega)
      have hne : n ≠ 0 := by omega
      simp [hzero, Nat.mod_eq_of_lt hlt, hne]
    · simp [Nat.digits_ne_nil_iff_ne_zero.mpr hzero]

theorem skipZeros_map {ds : List Nat} (h : ∀ d ∈ ds, d < 36) : skipZeros (ds.map digitByte) =
    if ds.dropWhile (· = 0) = [] then [digitByte 0]
    else (ds.dropWhile (· = 0)).map digitByte := by
  have hdigit : ∀ d < 36, digitByte d = digitByte 0 ↔ d = 0 := by decide
  induction ds with
  | nil => rfl
  | cons d ds ih =>
    rw [List.forall_mem_cons] at h
    rw [List.map_cons, skipZeros, if_congr (hdigit d h.1) rfl rfl]
    by_cases hd : d = 0
    · rw [if_pos hd, ih h.2, List.dropWhile_cons_of_pos (by simpa using hd)]
    · rw [if_neg hd, List.dropWhile_cons_of_neg (by simpa using hd), if_neg (List.cons_ne_nil _ _),
        List.map_cons]

theorem skipZeros_lastDigits (hbase : 1 < base) (hmax : base ≤ 36) (h : n < base ^ k) :
    skipZeros ((lastDigits base k n).map digitByte) = numeral base n := by
  rw [skipZeros_map fun d hd => Nat.lt_of_lt_of_le (lastDigits_lt hbase d hd) hmax,
    dropWhile_lastDigits hbase h, numeral, List.map_reverse]
  apply if_congr ?_ rfl rfl
  rw [List.reverse_eq_nil_iff, Nat.digits_eq_nil_iff_eq_zero]

end LastDigits

/-! ### Texts in a memory -/

/-- The bytes from `p` on are those of the text, with a 0 behind them. -/
def StringAt (mem : Nat → UInt8) : Nat → List UInt8 → Prop
  | p, [] => mem p = 0
  | p, c :: text => c ≠ 0 ∧ mem p = c ∧ StringAt mem (p + 1) text

instance StringAt.decidable (mem : Nat → UInt8) :
    (p : Nat) → (text : List UInt8) → Decidable (StringAt mem p text)
  | p, [] => inferInstanceAs (Decidable (mem p = 0))
  | p, c :: text =>
    have := StringAt.decidable mem (p + 1) text
    inferInstanceAs (Decidable (c ≠ 0 ∧ mem p = c ∧ StringAt mem (p + 1) text))

/-- The text has been written from `a` on. The byte behind it may have been written too. -/
structure Writes (mem mem' : Nat → UInt8) (a : Nat) (text : List UInt8) : Prop where
  written : ∀ k (h : k < text.length), mem' (a + k) = text[k]
  kept : ∀ b, b < a ∨ a + text.length < b → mem' b = mem b

section Memory

variable {mem mem₁ mem' : Nat → UInt8} {a p : Nat} {text text' : List UInt8}

theorem StringAt.congr (h : StringAt mem p text)
    (heq : ∀ b, p ≤ b → b ≤ p + text.length → mem' b = mem b) : StringAt mem' p text := by
  induction text generalizing p with
  | nil => exact (heq p (Nat.le_refl p) (Nat.le_refl p)).trans h
  | cons c text ih =>
    obtain ⟨hne, hc, hrest⟩ := h
    rw [List.length_cons] at heq
    exact ⟨hne, (heq p (by omega) (by omega)).trans hc,
      ih hrest fun b hb hb' => heq b (by omega) (by omega)⟩

theorem stringAt_iff : StringAt mem p text ↔ (∀ c ∈ text, c ≠ 0) ∧
    (∀ k (h : k < text.length), mem (p + k) = text[k]) ∧ mem (p + text.length) = 0 := by
  induction text generalizing p with
  | nil => simp [StringAt]
  | cons c text ih =>
    have hshift : ∀ k, p + 1 + k = p + (k + 1) := fun k => by omega
    rw [StringAt, ih, List.forall_mem_cons]
    constructor
    · rintro ⟨hne, hc, hnes, hbytes, hend⟩
      refine ⟨⟨hne, hnes⟩, fun k hk => ?_, hshift text.length ▸ hend⟩
      cases k with
      | zero => exact hc
      | succ k => exact hshift k ▸ hbytes k (Nat.lt_of_succ_lt_succ hk)
    · rintro ⟨⟨hne, hnes⟩, hbytes, hend⟩
      refine ⟨hne, hbytes 0 (Nat.succ_pos _), hnes, fun k hk => ?_,
        (hshift text.length).symm ▸ hend⟩
      exact (hshift k).symm ▸ hbytes (k + 1) (Nat.succ_lt_succ hk)

/-- The induction rule for a loop that goes over a text byte by byte, with `fuel` passes to go. -/
theorem StringAt.walk {motive : Nat → Nat → List UInt8 → Prop}
    (nil : ∀ fuel p, mem p = 0 → motive (fuel + 1) p [])
    (cons : ∀ fuel p text, mem p ≠ 0 → motive fuel (p + 1) text →
      motive (fuel + 1) p (mem p :: text))
    {fuel : Nat} (h : StringAt mem p text) (hfuel : text.length < fuel) : motive fuel p text := by
  induction text generalizing p fuel with
  | nil =>
    obtain ⟨fuel, rfl⟩ := Nat.exists_eq_succ_of_ne_zero (Nat.ne_zero_of_lt hfuel)
    exact nil fuel p h
  | cons c text ih =>
    obtain ⟨hne, rfl, hrest⟩ := h
    obtain ⟨fuel, rfl⟩ := Nat.exists_eq_succ_of_ne_zero (Nat.ne_zero_of_lt hfuel)
    exact cons fuel p text hne (ih hrest (Nat.lt_of_succ_lt_succ hfuel))

theorem Writes.nil : Writes mem mem a [] :=
  ⟨fun k hk => absurd hk (Nat.not_lt_zero k), fun _ _ => rfl⟩

theorem Writes.singleton (c : UInt8) : Writes mem (Function.update mem a c) a [c] := by
  refine ⟨fun k hk => ?_, fun b hb => Function.update_of_ne (by omega) c mem⟩
  obtain rfl : k = 0 := Nat.lt_one_iff.mp hk
  exact Function.update_self a c mem

theorem Writes.append (h : Writes mem mem₁ a text) (h' : Writes mem₁ mem' (a + text.length) text') :
    Writes mem mem' a (text ++ text') := by
  refine ⟨fun k hk => ?_, fun b hb => ?_⟩
  · rcases Nat.lt_or_ge k text.length with hlt | hge
    · rw [List.getElem_append_left hlt, h'.kept _ (by omega), h.written k hlt]
    · rw [List.length_append] at hk
      rw [List.getElem_append_right hge, ← h'.written (k - text.length) (by omega)]
      congr 1
      omega
  · rw [List.length_append] at hb
    rw [h'.kept b (by omega), h.kept b (by omega)]

end Memory

/-! ### The first and the last element with a property -/

section Search

variable {α : Type} {p q : α → Prop} {x : α} {xs : List α} {k : Nat}

structure FirstIdx (p : α → Prop) (xs : List α) (k : Nat) : Prop where
  found : ∃ x, xs[k]? = some x ∧ p x
  before : ∀ j < k, ∀ x, xs[j]? = some x → ¬ p x

structure LastIdx (p : α → Prop) (xs : List α) (k : Nat) : Prop where
  found : ∃ x, xs[k]? = some x ∧ p x
  behind : ∀ j, k < j → ∀ x, xs[j]? = some x → ¬ p x

theorem FirstIdx.head (h : p x) : FirstIdx p (x :: xs) 0 :=
  ⟨⟨x, rfl, h⟩, fun j hj => absurd hj (Nat.not_lt_zero j)⟩

theorem FirstIdx.cons (hx : ¬ p x) (h : FirstIdx p xs k) : FirstIdx p (x :: xs) (k + 1) := by
  refine ⟨h.found, fun j hj y hy => ?_⟩
  cases j with
  | zero => exact Option.some.inj hy ▸ hx
  | succ j => exact h.before j (Nat.lt_of_succ_lt_succ hj) y hy

theorem LastIdx.head (hx : p x) (h : ∀ y ∈ xs, ¬ p y) : LastIdx p (x :: xs) 0 := by
  refine ⟨⟨x, rfl, hx⟩, fun j hj y hy => ?_⟩
  obtain ⟨j, rfl⟩ := Nat.exists_eq_succ_of_ne_zero (Nat.ne_zero_of_lt hj)
  exact h y (List.mem_of_getElem? hy)

theorem LastIdx.cons (h : LastIdx p xs k) : LastIdx p (x :: xs) (k + 1) := by
  refine ⟨h.found, fun j hj y hy => ?_⟩
  obtain ⟨j, rfl⟩ := Nat.exists_eq_succ_of_ne_zero (Nat.ne_zero_of_lt hj)
  exact h.behind j (Nat.lt_of_succ_lt_succ hj) y hy

theorem FirstIdx.congr (h : FirstIdx p xs k) (heq : ∀ x ∈ xs, p x ↔ q x) : FirstIdx q xs k := by
  obtain ⟨x, hx, hp⟩ := h.found
  refine ⟨⟨x, hx, (heq x (List.mem_of_getElem? hx)).mp hp⟩, fun j hj y hy => ?_⟩
  exact mt (heq y (List.mem_of_getElem? hy)).mpr (h.before j hj y hy)

theorem LastIdx.congr (h : LastIdx p xs k) (heq : ∀ x ∈ xs, p x ↔ q x) : LastIdx q xs k := by
  obtain ⟨x, hx, hp⟩ := h.found
  refine ⟨⟨x, hx, (heq x (List.mem_of_getElem? hx)).mp hp⟩, fun j hj y hy => ?_⟩
  exact mt (heq y (List.mem_of_getElem? hy)).mpr (h.behind j hj y hy)

end Search

end OriginOS.Lib
