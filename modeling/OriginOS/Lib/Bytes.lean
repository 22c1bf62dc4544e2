import Mathlib.Algebra.Group.Nat.Defs
import Mathlib.Data.Nat.Bitwise

/-! Byte memories, the little-endian 32-bit words in them, and the bit masks of such words. -/

namespace OriginOS.Lib

def load32 (mem : Nat → UInt8) (a : Nat) : Nat :=
  (mem a).toNat + 2 ^ 8 * (mem (a + 1)).toNat + 2 ^ 16 * (mem (a + 2)).toNat +
    2 ^ 24 * (mem (a + 3)).toNat

/-- The memory with the 32-bit word `w` at address `a`. -/
def store32 (mem : Nat → UInt8) (a w : Nat) : Nat → UInt8 := fun b =>
  if b = a then UInt8.ofNat w
  else if b = a + 1 then UInt8.ofNat (w / 2 ^ 8)
  else if b = a + 2 then UInt8.ofNat (w / 2 ^ 16)
  else if b = a + 3 then UInt8.ofNat (w / 2 ^ 24)
  else mem b

/-- The memory with `n` bytes `v` from address `a` on. -/
def fill (mem : Nat → UInt8) (a n : Nat) (v : UInt8) : Nat → UInt8 := fun b =>
  if a ≤ b ∧ b < a + n then v else mem b

/-- The memory with the `n` bytes from `src` on copied to `dst`. -/
def copy (mem : Nat → UInt8) (dst src n : Nat) : Nat → UInt8 := fun b =>
  if dst ≤ b ∧ b < dst + n then mem (src + (b - dst)) else mem b

/-- The memory whose aligned 32-bit words are given. -/
def ofWords (f : Nat → Nat) : Nat → UInt8 := fun a => UInt8.ofNat (f (a / 4) / 2 ^ (8 * (a % 4)))

variable {mem mem' : Nat → UInt8} {a b n w : Nat} {v : UInt8}

theorem load32_lt (mem : Nat → UInt8) (a : Nat) : load32 mem a < 2 ^ 32 := by
  have h₀ := (mem a).toNat_lt
  have h₁ := (mem (a + 1)).toNat_lt
  have h₂ := (mem (a + 2)).toNat_lt
  have h₃ := (mem (a + 3)).toNat_lt
  unfold load32
  omega

theorem load32_congr (h : ∀ b, a ≤ b → b < a + 4 → mem' b = mem b) :
    load32 mem' a = load32 mem a := by
  unfold load32
  rw [h a (by omega) (by omega), h (a + 1) (by omega) (by omega), h (a + 2) (by omega) (by omega),
    h (a + 3) (by omega) (by omega)]

theorem toNat_byte (mem : Nat → UInt8) (a : Nat) {j : Nat} (hj : j < 4) :
    (mem (a + j)).toNat = load32 mem a / 2 ^ (8 * j) % 2 ^ 8 := by
  have h₀ := (mem a).toNat_lt
  have h₁ := (mem (a + 1)).toNat_lt
  have h₂ := (mem (a + 2)).toNat_lt
  have h₃ := (mem (a + 3)).toNat_lt
  unfold load32
  obtain rfl | rfl | rfl | rfl : j = 0 ∨ j = 1 ∨ j = 2 ∨ j = 3 := by omega
  · rw [Nat.add_zero]
    omega
  all_goals omega

theorem testBit_load32 (mem : Nat → UInt8) (a : Nat) {i : Nat} (hi : i < 32) :
    (load32 mem a).testBit i = (mem (a + i / 8)).toNat.testBit (i % 8) := by
  rw [toNat_byte mem a (show i / 8 < 4 by omega), Nat.testBit_mod_two_pow, Nat.testBit_div_two_pow,
    decide_eq_true (show i % 8 < 8 by omega), Bool.true_and, Nat.mod_add_div]

theorem load32_setBit (mem : Nat → UInt8) (a : Nat) {j b : Nat} (hj : j < 4) (hb : b < 8) :
    load32 (Function.update mem (a + j) (mem (a + j) ||| UInt8.ofNat (1 <<< b))) a =
      load32 mem a ||| 2 ^ (8 * j + b) := by
  refine Nat.eq_of_testBit_eq fun i => ?_
  rw [Nat.testBit_or, Nat.testBit_two_pow]
  by_cases hi : i < 32
  · rw [testBit_load32 _ _ hi, testBit_load32 _ _ hi, Function.update_apply]
    by_cases heq : i / 8 = j
    · rw [if_pos (by omega), heq, UInt8.toNat_or, Nat.testBit_or, UInt8.toNat_ofNat',
        Nat.testBit_mod_two_pow, Nat.one_shiftLeft, Nat.testBit_two_pow,
        decide_eq_true (show i % 8 < 8 by omega), Bool.true_and]
      congr 1
      exact decide_eq_decide.mpr (by omega)
    · rw [if_neg (by omega), decide_eq_false (by omega), Bool.or_false]
  · have hlt := load32_lt mem a
    have hlt' := load32_lt (Function.update mem (a + j) (mem (a + j) ||| UInt8.ofNat (1 <<< b))) a
    have hpow : 2 ^ 32 ≤ 2 ^ i := Nat.pow_le_pow_right (by omega) (by omega)
    rw [Nat.testBit_lt_two_pow (by omega), Nat.testBit_lt_two_pow (by omega),
      decide_eq_false (by omega), Bool.or_false]

theorem load32_ofWords {f : Nat → Nat} {i : Nat} (h : f i < 2 ^ 32) :
    load32 (ofWords f) (4 * i) = f i := by
  unfold load32 ofWords
  rw [show 4 * i / 4 = i by omega, show (4 * i + 1) / 4 = i by omega,
    show (4 * i + 2) / 4 = i by omega, show (4 * i + 3) / 4 = i by omega,
    show 4 * i % 4 = 0 by omega, show (4 * i + 1) % 4 = 1 by omega,
    show (4 * i + 2) % 4 = 2 by omega, show (4 * i + 3) % 4 = 3 by omega]
  simp only [UInt8.toNat_ofNat']
  omega

theorem store32_apply_of_not (h : b < a ∨ a + 4 ≤ b) : store32 mem a w b = mem b := by
  unfold store32
  rw [if_neg (by omega), if_neg (by omega), if_neg (by omega), if_neg (by omega)]

theorem store32_apply_congr (h : mem' b = mem b) : store32 mem' a w b = store32 mem a w b := by
  unfold store32
  rw [h]

theorem store32_load32 (mem : Nat → UInt8) (a : Nat) : store32 mem a (load32 mem a) = mem := by
  have hbyte : ∀ j < 4, UInt8.ofNat (load32 mem a / 2 ^ (8 * j)) = mem (a + j) := by
    intro j hj
    apply UInt8.toNat_inj.mp
    rw [toNat_byte mem a hj, UInt8.toNat_ofNat']
  have h₀ := hbyte 0 (by decide)
  simp only [Nat.mul_zero, Nat.pow_zero, Nat.div_one, Nat.add_zero] at h₀
  funext b
  unfold store32
  split
  · next hb => rw [hb, h₀]
  split
  · next hb => rw [hb, ← hbyte 1 (by decide)]
  split
  · next hb => rw [hb, ← hbyte 2 (by decide)]
  split
  · next hb => rw [hb, ← hbyte 3 (by decide)]
  · rfl

theorem load32_store32_self (hw : w < 2 ^ 32) : load32 (store32 mem a w) a = w := by
  simp only [load32, store32, if_true, if_neg (show ¬ a + 1 = a by omega),
    if_neg (show ¬ a + 2 = a by omega), if_neg (show ¬ a + 2 = a + 1 by omega),
    if_neg (show ¬ a + 3 = a by omega), if_neg (show ¬ a + 3 = a + 1 by omega),
    if_neg (show ¬ a + 3 = a + 2 by omega), UInt8.toNat_ofNat']
  omega

theorem load32_store32_of_disjoint (h : b + 4 ≤ a ∨ a + 4 ≤ b) :
    load32 (store32 mem a w) b = load32 mem b :=
  load32_congr fun c _ _ => store32_apply_of_not (by omega)

theorem load32_store32_of_ne (ha : a % 4 = 0) (hb : b % 4 = 0) (h : b ≠ a) :
    load32 (store32 mem a w) b = load32 mem b :=
  load32_store32_of_disjoint (by omega)

/-- The words `f 0`, `f 1`, ... have been written from `a` on, `n` of them, and nothing else. -/
structure WroteWords (mem mem' : Nat → UInt8) (a n : Nat) (f : Nat → Nat) : Prop where
  words : ∀ i < n, load32 mem' (a + 4 * i) = f i
  kept : ∀ b, b < a ∨ a + 4 * n ≤ b → mem' b = mem b

theorem WroteWords.zero (mem : Nat → UInt8) (a : Nat) (f : Nat → Nat) : WroteWords mem mem a 0 f :=
  ⟨fun i hi => absurd hi (Nat.not_lt_zero i), fun _ _ => rfl⟩

theorem WroteWords.store {f : Nat → Nat} (h : WroteWords mem mem' a n f) (hf : f n < 2 ^ 32) :
    WroteWords mem (store32 mem' (a + 4 * n) (f n)) a (n + 1) f := by
  refine ⟨fun i hi => ?_, fun b hb => ?_⟩
  · rcases Nat.lt_succ_iff_lt_or_eq.mp hi with hlt | rfl
    · rw [load32_store32_of_disjoint (by omega)]
      exact h.words i hlt
    · exact load32_store32_self hf
  · rw [store32_apply_of_not (by omega)]
    exact h.kept b (by omega)

theorem fill_apply_of_mem (h : a ≤ b ∧ b < a + n) : fill mem a n v b = v := if_pos h

theorem fill_apply_of_not (h : b < a ∨ a + n ≤ b) : fill mem a n v b = mem b :=
  if_neg (by omega)

theorem fill_zero (mem : Nat → UInt8) (a : Nat) (v : UInt8) : fill mem a 0 v = mem :=
  funext fun _ => fill_apply_of_not (by omega)

theorem fill_update (mem : Nat → UInt8) (a n : Nat) (v : UInt8) :
    fill (Function.update mem a v) (a + 1) n v = fill mem a (n + 1) v := by
  funext b
  unfold fill
  by_cases hb : b = a
  · subst hb
    rw [if_neg (by omega), if_pos (by omega), Function.update_self]
  · rw [Function.update_of_ne hb]
    by_cases hmem : a + 1 ≤ b ∧ b < a + 1 + n
    · rw [if_pos hmem, if_pos (by omega)]
    · rw [if_neg hmem, if_neg (by omega)]

theorem update_fill (mem : Nat → UInt8) (a n : Nat) (v : UInt8) :
    Function.update (fill mem a n v) (a + n) v = fill mem a (n + 1) v := by
  funext b
  by_cases hb : b = a + n
  · rw [hb, Function.update_self, fill_apply_of_mem (by omega)]
  · rw [Function.update_of_ne hb, fill, fill]
    exact if_congr (by omega) rfl rfl

theorem copy_apply_of_not {dst src : Nat} (h : b < dst ∨ dst + n ≤ b) :
    copy mem dst src n b = mem b :=
  if_neg (by omega)

theorem copy_zero (mem : Nat → UInt8) (dst src : Nat) : copy mem dst src 0 = mem :=
  funext fun _ => copy_apply_of_not (by omega)

theorem copy_update (mem : Nat → UInt8) {dst src : Nat}
    (h : src + (n + 1) ≤ dst ∨ dst + (n + 1) ≤ src) :
    copy (Function.update mem dst (mem src)) (dst + 1) (src + 1) n = copy mem dst src (n + 1) := by
  funext b
  unfold copy
  by_cases hb : b = dst
  · subst hb
    rw [if_neg (by omega), if_pos (by omega), Function.update_self, Nat.sub_self, Nat.add_zero]
  · by_cases hmem : dst + 1 ≤ b ∧ b < dst + 1 + n
    · rw [if_pos hmem, if_pos (by omega), Function.update_of_ne (by omega)]
      congr 1
      omega
    · rw [if_neg hmem, if_neg (by omega), Function.update_of_ne hb]

theorem load32_copy {dst src : Nat} (h : dst ≤ b ∧ b + 4 ≤ dst + n) :
    load32 (copy mem dst src n) b = load32 mem (src + (b - dst)) := by
  unfold load32 copy
  rw [if_pos (by omega), if_pos (by omega), if_pos (by omega), if_pos (by omega),
    show b + 1 - dst = b - dst + 1 by omega, show b + 2 - dst = b - dst + 2 by omega,
    show b + 3 - dst = b - dst + 3 by omega]
  simp only [Nat.add_assoc]

theorem load32_fill_zero (h : a ≤ b ∧ b + 4 ≤ a + n) : load32 (fill mem a n 0) b = 0 := by
  unfold load32
  rw [fill_apply_of_mem (by omega), fill_apply_of_mem (by omega), fill_apply_of_mem (by omega),
    fill_apply_of_mem (by omega)]
  rfl

/-! ### Masks -/

theorem and_high_mask {w : Nat} (hw : w < 2 ^ 32) {k : Nat} (hk : k ≤ 32) :
    w &&& (2 ^ k * (2 ^ (32 - k) - 1)) = w / 2 ^ k * 2 ^ k := by
  apply Nat.eq_of_testBit_eq
  intro i
  rw [Nat.testBit_and, Nat.testBit_two_pow_mul, Nat.testBit_two_pow_sub_one, Nat.mul_comm,
    Nat.testBit_two_pow_mul, Nat.testBit_div_two_pow]
  by_cases hi : k ≤ i
  · have hsum : i - k + k = i := by omega
    by_cases hlt : i < 32
    · simp [hi, hsum, show i - k < 32 - k by omega]
    · have hzero : w.testBit i = false :=
        Nat.testBit_lt_two_pow (Nat.lt_of_lt_of_le hw (Nat.pow_le_pow_right (by decide) (by omega)))
      simp [hi, hsum, hzero]
  · simp [hi]

theorem and_page_mask {w : Nat} (hw : w < 2 ^ 32) : w &&& 0xfffff000 = w / 4096 * 4096 :=
  and_high_mask hw (k := 12) (by decide)

theorem or_low {w n k : Nat} (hw : w % 2 ^ k = 0) (hn : n < 2 ^ k) : w ||| n = w + n := by
  have hdiv : 2 ^ k * (w / 2 ^ k) = w := by
    have h := Nat.div_add_mod w (2 ^ k)
    omega
  rw [← hdiv]
  exact (Nat.two_pow_add_eq_or_of_lt hn _).symm

end OriginOS.Lib
