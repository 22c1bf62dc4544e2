import Mathlib.Data.Nat.Find
import Mathlib.Logic.Function.Basic
import OriginOS.Kernel.Debug

/-! The bitmaps of `lib/kernel/bitmap.c`, and what they say as sets of bits. -/

namespace OriginOS

/-- `struct bitmap`: the pointer `btmp->bits` is `addr`, and `bits` is the memory from there on, of
which the first `btmpBytesLen` bytes are the bitmap. -/
structure Bitmap where
  btmpBytesLen : Nat
  addr : Nat
  bits : Nat → UInt8

def bitmapInit (btmp : Bitmap) : Bitmap :=
  { btmp with bits := fun i => if i < btmp.btmpBytesLen then 0 else btmp.bits i }

def bitmapMask (bit : Nat) : UInt8 := UInt8.ofNat (1 <<< bit)

def bitmapScanTest (btmp : Bitmap) (bitIdx : Nat) : Bool :=
  btmp.bits (bitIdx / 8) &&& bitmapMask (bitIdx % 8) ≠ 0

/-- The first loop of `bitmap_scan`, from `idxByte` on: the first byte that is not full. -/
def bitmapScanByte (btmp : Bitmap) : Nat → Nat → Nat
  | 0, idxByte => idxByte
  | n + 1, idxByte =>
    if btmp.bits idxByte = 0xff ∧ idxByte < btmp.btmpBytesLen then
      bitmapScanByte btmp n (idxByte + 1)
    else idxByte

/-- The second loop of `bitmap_scan`: the first clear bit of a byte. -/
def bitmapScanBit (byte : UInt8) : Nat → Nat → Nat
  | 0, idxBit => idxBit
  | n + 1, idxBit =>
    if bitmapMask idxBit &&& byte ≠ 0 then bitmapScanBit byte n (idxBit + 1) else idxBit

/-- The last loop of `bitmap_scan`, with `bitLeft` tests to go and `count` clear bits before
`nextBit`. -/
def bitmapScanRun (btmp : Bitmap) (cnt : Nat) : Nat → Nat → Nat → Int
  | 0, _, _ => -1
  | bitLeft + 1, count, nextBit =>
    let count := if bitmapScanTest btmp nextBit then 0 else count + 1
    if count = cnt then nextBit - cnt + 1
    else bitmapScanRun btmp cnt bitLeft count (nextBit + 1)

def bitmapScan (ndebug : Bool) (btmp : Bitmap) (cnt : Nat) : Except Panic Int := do
  let idxByte := bitmapScanByte btmp btmp.btmpBytesLen 0
  assertUnless ndebug (idxByte < btmp.btmpBytesLen)
    ⟨"./lib/kernel/bitmap.c", 28, "bitmap_scan", "idx_byte < btmp->btmp_bytes_len"⟩
  if idxByte = btmp.btmpBytesLen then pure (-1)
  else
    let bitIdxStart := idxByte * 8 + bitmapScanBit (btmp.bits idxByte) 8 0
    if cnt = 1 then pure bitIdxStart
    else pure (bitmapScanRun btmp cnt (btmp.btmpBytesLen * 8 - bitIdxStart) 1 (bitIdxStart + 1))

def bitmapSet (ndebug : Bool) (btmp : Bitmap) (bitIdx : Nat) (value : Int) :
    Except Panic Bitmap := do
  assertUnless ndebug (value = 0 ∨ value = 1)
    ⟨"./lib/kernel/bitmap.c", 67, "bitmap_set", "(value==0)||(value==1)"⟩
  let byte := btmp.bits (bitIdx / 8)
  let byte := if value ≠ 0 then byte ||| bitmapMask (bitIdx % 8)
    else byte &&& ~~~ bitmapMask (bitIdx % 8)
  pure { btmp with bits := Function.update btmp.bits (bitIdx / 8) byte }

namespace Bitmap

/-- Bit number `i`, also behind the end of the bitmap. -/
def bit (btmp : Bitmap) (i : Nat) : Bool := (btmp.bits (i / 8)).toBitVec.getLsbD (i % 8)

def putByte (byte : UInt8) (k : Nat) (value : Bool) : UInt8 :=
  if value then byte ||| bitmapMask k else byte &&& ~~~ bitmapMask k

def put (btmp : Bitmap) (i : Nat) (value : Bool) : Bitmap :=
  { btmp with
    bits := Function.update btmp.bits (i / 8) (putByte (btmp.bits (i / 8)) (i % 8) value) }

end Bitmap

theorem getLsbD_bitmapMask {j : Nat} (hj : j < 8) (k : Nat) :
    (bitmapMask k).toBitVec.getLsbD j = decide (k = j) := by
  show (BitVec.ofNat 8 (1 <<< k)).getLsbD j = _
  rw [BitVec.getLsbD_ofNat, Nat.one_shiftLeft, Nat.testBit_two_pow]
  simp [hj]

theorem and_bitmapMask_ne_zero (byte : UInt8) {k : Nat} (hk : k < 8) :
    byte &&& bitmapMask k ≠ 0 ↔ byte.toBitVec.getLsbD k = true := by
  constructor
  · intro hne
    by_contra hbit
    refine hne (UInt8.toBitVec_inj.mp (BitVec.eq_of_getLsbD_eq fun j hj => ?_))
    rw [UInt8.toBitVec_and, BitVec.getLsbD_and, getLsbD_bitmapMask hj]
    by_cases hkj : k = j
    · subst hkj
      simp [Bool.eq_false_iff.mpr hbit]
    · simp [hkj]
  · intro hbit hzero
    have hk' := congrArg (fun b : UInt8 => b.toBitVec.getLsbD k) hzero
    simp [getLsbD_bitmapMask hk, hbit] at hk'

theorem bitmapScanTest_eq (btmp : Bitmap) (i : Nat) : bitmapScanTest btmp i = btmp.bit i := by
  rw [Bool.eq_iff_iff, bitmapScanTest, decide_eq_true_iff]
  exact and_bitmapMask_ne_zero _ (Nat.mod_lt _ (by decide))

namespace Bitmap

theorem getLsbD_putByte (byte : UInt8) (k : Nat) (value : Bool) {j : Nat} (hj : j < 8) :
    (putByte byte k value).toBitVec.getLsbD j =
      if k = j then value else byte.toBitVec.getLsbD j := by
  unfold putByte
  cases value with
  | true =>
    rw [if_pos rfl, UInt8.toBitVec_or, BitVec.getLsbD_or, getLsbD_bitmapMask hj]
    split <;> simp [*]
  | false =>
    rw [if_neg (by decide), UInt8.toBitVec_and, BitVec.getLsbD_and, UInt8.toBitVec_not,
      BitVec.getLsbD_not, getLsbD_bitmapMask hj]
    split <;> simp [*]

@[simp] theorem put_len (btmp : Bitmap) (i : Nat) (value : Bool) :
    (btmp.put i value).btmpBytesLen = btmp.btmpBytesLen := rfl

@[simp] theorem bit_put (btmp : Bitmap) (i : Nat) (value : Bool) (j : Nat) :
    (btmp.put i value).bit j = if j = i then value else btmp.bit j := by
  unfold bit put
  by_cases hbyte : j / 8 = i / 8
  · rw [hbyte]
    simp only [Function.update_self]
    rw [getLsbD_putByte _ _ _ (Nat.mod_lt _ (by decide))]
    by_cases hj : j = i
    · rw [if_pos (by rw [hj]), if_pos hj]
    · rw [if_neg (by omega), if_neg hj]
  · rw [if_neg (by rintro rfl; exact hbyte rfl)]
    simp only [Function.update_of_ne hbyte]

end Bitmap

@[simp] theorem bitmapSet_one (ndebug : Bool) (btmp : Bitmap) (i : Nat) :
    bitmapSet ndebug btmp i 1 = .ok (btmp.put i true) := by
  cases ndebug <;> rfl

@[simp] theorem bitmapSet_zero (ndebug : Bool) (btmp : Bitmap) (i : Nat) :
    bitmapSet ndebug btmp i 0 = .ok (btmp.put i false) := by
  cases ndebug <;> rfl

theorem bit_bitmapInit (btmp : Bitmap) (i : Nat) :
    (bitmapInit btmp).bit i = if i < 8 * btmp.btmpBytesLen then false else btmp.bit i := by
  unfold Bitmap.bit bitmapInit
  by_cases hi : i < 8 * btmp.btmpBytesLen
  · simp only [if_pos hi, if_pos (show i / 8 < btmp.btmpBytesLen by omega)]
    simp
  · simp only [if_neg hi, if_neg (show ¬ i / 8 < btmp.btmpBytesLen by omega)]

/-! ### The scan -/

theorem bitmapScanByte_spec (btmp : Bitmap) (n idx : Nat) (hn : idx + n = btmp.btmpBytesLen) :
    idx ≤ bitmapScanByte btmp n idx ∧ bitmapScanByte btmp n idx ≤ btmp.btmpBytesLen ∧
    (∀ j, idx ≤ j → j < bitmapScanByte btmp n idx → btmp.bits j = 0xff) ∧
    (bitmapScanByte btmp n idx < btmp.btmpBytesLen →
      btmp.bits (bitmapScanByte btmp n idx) ≠ 0xff) := by
  induction n generalizing idx with
  | zero =>
    unfold bitmapScanByte
    exact ⟨Nat.le_refl _, by omega, fun j h h' => absurd h' (by omega),
      fun h => absurd h (by omega)⟩
  | succ n ih =>
    unfold bitmapScanByte
    split
    · next hfull =>
      obtain ⟨hle, hlen, hbefore, hstop⟩ := ih (idx + 1) (by omega)
      refine ⟨by omega, hlen, fun j h h' => ?_, hstop⟩
      by_cases hj : j = idx
      · rw [hj]
        exact hfull.1
      · exact hbefore j (by omega) h'
    · next hfree =>
      refine ⟨Nat.le_refl _, by omega, fun j h h' => absurd h' (by omega), fun hlt hff => ?_⟩
      exact hfree ⟨hff, hlt⟩

theorem bitmapScanBit_spec {byte : UInt8} (n idx : Nat) (hn : idx + n = 8)
    (hclear : ∃ k, idx ≤ k ∧ k < 8 ∧ byte.toBitVec.getLsbD k = false) :
    idx ≤ bitmapScanBit byte n idx ∧ bitmapScanBit byte n idx < 8 ∧
    byte.toBitVec.getLsbD (bitmapScanBit byte n idx) = false ∧
    ∀ k, idx ≤ k → k < bitmapScanBit byte n idx → byte.toBitVec.getLsbD k = true := by
  obtain ⟨k, hle, hlt, hk⟩ := hclear
  induction n generalizing idx with
  | zero => omega
  | succ n ih =>
    have htest : bitmapMask idx &&& byte ≠ 0 ↔ byte.toBitVec.getLsbD idx = true := by
      rw [UInt8.and_comm]
      exact and_bitmapMask_ne_zero byte (by omega)
    unfold bitmapScanBit
    split
    · next hset =>
      have hidx := htest.mp hset
      have hne : k ≠ idx := by
        rintro rfl
        rw [hk] at hidx
        exact Bool.false_ne_true hidx
      obtain ⟨h₁, h₂, h₃, h₄⟩ := ih (idx + 1) (by omega) (by omega)
      refine ⟨by omega, h₂, h₃, fun j hj hj' => ?_⟩
      by_cases heq : j = idx
      · rw [heq]
        exact hidx
      · exact h₄ j (by omega) hj'
    · next hset =>
      exact ⟨Nat.le_refl _, by omega, Bool.eq_false_iff.mpr (htest.not.mp hset),
        fun j hj hj' => absurd hj' (by omega)⟩

theorem exists_clear_of_ne {byte : UInt8} (h : byte ≠ 0xff) :
    ∃ k, 0 ≤ k ∧ k < 8 ∧ byte.toBitVec.getLsbD k = false := by
  by_contra hall
  refine h (UInt8.toBitVec_inj.mp (BitVec.eq_of_getLsbD_eq fun k hk => ?_))
  have hbit : byte.toBitVec.getLsbD k = true := by
    by_contra hf
    exact hall ⟨k, Nat.zero_le k, hk, Bool.eq_false_iff.mpr hf⟩
  rw [hbit]
  have hff : ∀ k : Fin 8, (0xff : UInt8).toBitVec.getLsbD k.val = true := by decide
  exact (hff ⟨k, hk⟩).symm

/-- The last loop finds a run of `cnt` clear bits that ends before bit `nextBit + bitLeft`. -/
theorem bitmapScanRun_spec (btmp : Bitmap) {cnt : Nat} (bitLeft count nextBit : Nat)
    (hcount : count < cnt)
    (hnext : count ≤ nextBit)
    (hclear : ∀ j, nextBit - count ≤ j → j < nextBit → btmp.bit j = false) :
    bitmapScanRun btmp cnt bitLeft count nextBit = -1 ∨
    ∃ i : Nat, bitmapScanRun btmp cnt bitLeft count nextBit = i ∧ i + cnt ≤ nextBit + bitLeft ∧
      ∀ j, i ≤ j → j < i + cnt → btmp.bit j = false := by
  induction bitLeft generalizing count nextBit with
  | zero => exact .inl rfl
  | succ bitLeft ih =>
    unfold bitmapScanRun
    rw [bitmapScanTest_eq]
    by_cases hbit : btmp.bit nextBit = true
    · rw [if_pos hbit]
      dsimp only
      rw [if_neg (by omega)]
      rcases ih 0 (nextBit + 1) (by omega) (by omega)
        (fun j h h' => absurd h' (by omega)) with hnone | ⟨i, hi, hle, hrun⟩
      · exact .inl hnone
      · exact .inr ⟨i, hi, by omega, hrun⟩
    · -- the run of clear bits before `nextBit` grows by one
      have hrun : ∀ j, nextBit - count ≤ j → j < nextBit + 1 → btmp.bit j = false := by
        intro j h h'
        by_cases hj : j = nextBit
        · rw [hj]
          exact Bool.eq_false_iff.mpr hbit
        · exact hclear j h (by omega)
      rw [if_neg hbit]
      dsimp only
      split
      · next heq =>
        refine .inr ⟨nextBit - count, ?_, by omega, fun j h h' => hrun j h (by omega)⟩
        omega
      · next hne =>
        rcases ih (count + 1) (nextBit + 1) (by omega) (by omega)
          (fun j h h' => hrun j (by omega) h') with hnone | ⟨i, hi, hle, hrun⟩
        · exact .inl hnone
        · exact .inr ⟨i, hi, by omega, hrun⟩

/-- A run of `cnt` clear bits from bit `i` on. The scan for more than one bit also examines the bit
behind the bitmap, so the run may end one bit too far. -/
structure Bitmap.ClearRun (btmp : Bitmap) (cnt i : Nat) : Prop where
  clear : ∀ j, i ≤ j → j < i + cnt → btmp.bit j = false
  bound : i + cnt ≤ 8 * btmp.btmpBytesLen + 1
  one : cnt = 1 → i < 8 * btmp.btmpBytesLen

/-- `bitmap_scan`, if it does not stop, fails or finds a run of clear bits. It stops when every byte
is full. -/
theorem bitmapScan_ok {btmp : Bitmap} {cnt : Nat} {r : Int} (hcnt : 0 < cnt)
    (h : bitmapScan false btmp cnt = .ok r) :
    (r = -1 ∧ 1 < cnt) ∨ ∃ i : Nat, r = i ∧ btmp.ClearRun cnt i := by
  obtain ⟨-, -, -, hstop⟩ := bitmapScanByte_spec btmp btmp.btmpBytesLen 0 (by omega)
  unfold bitmapScan at h
  dsimp only at h
  rw [assertUnless_false, bind_eq_ok] at h
  obtain ⟨_, hassert, h⟩ := h
  have hlt := of_decide_eq_true (assert_eq_ok.mp hassert)
  rw [if_neg (Nat.ne_of_lt hlt)] at h
  generalize bitmapScanByte btmp btmp.btmpBytesLen 0 = idx at hlt hstop h
  obtain ⟨-, hk, hclear, -⟩ := bitmapScanBit_spec 8 0 rfl
    (exists_clear_of_ne (hstop hlt))
  generalize bitmapScanBit (btmp.bits idx) 8 0 = k at hk hclear h
  have hbit : btmp.bit (idx * 8 + k) = false := by
    unfold Bitmap.bit
    rw [show (idx * 8 + k) / 8 = idx by omega, show (idx * 8 + k) % 8 = k by omega]
    exact hclear
  split at h
  · next hone =>
    obtain rfl := Except.ok.inj h
    refine .inr ⟨idx * 8 + k, rfl, fun j hj hj' => ?_, by omega, fun _ => by omega⟩
    rw [show j = idx * 8 + k by omega]
    exact hbit
  · next hmany =>
    obtain rfl := Except.ok.inj h
    rcases bitmapScanRun_spec btmp (btmp.btmpBytesLen * 8 - (idx * 8 + k)) 1 (idx * 8 + k + 1)
        (show 1 < cnt by omega) (by omega)
        (fun j hj hj' => by rw [show j = idx * 8 + k by omega]; exact hbit) with
      hnone | ⟨i, hi, hle, hrun⟩
    · exact .inl ⟨hnone, by omega⟩
    · exact .inr ⟨i, hi, hrun, by omega, fun h => absurd h hmany⟩

theorem bitmapScan_error {btmp : Bitmap} {cnt : Nat} {p : Panic}
    (h : bitmapScan false btmp cnt = .error p) :
    p = ⟨"./lib/kernel/bitmap.c", 28, "bitmap_scan", "idx_byte < btmp->btmp_bytes_len"⟩ := by
  unfold bitmapScan at h
  dsimp only at h
  rw [assertUnless_false] at h
  by_cases hlt : bitmapScanByte btmp btmp.btmpBytesLen 0 < btmp.btmpBytesLen
  · rw [assert_of (decide_eq_true hlt), ok_bind, if_neg (Nat.ne_of_lt hlt)] at h
    split at h <;> exact nomatch h
  · rw [decide_eq_false hlt] at h
    exact (Except.error.inj h).symm

theorem bitmapScanRun_first (btmp : Bitmap) {cnt : Nat} (bitLeft count nextBit : Nat)
    (hcount : count < cnt) (hnext : count ≤ nextBit) (hleft : cnt ≤ count + bitLeft)
    (hclear : ∀ j, nextBit ≤ j → j + count < nextBit + cnt → btmp.bit j = false) :
    bitmapScanRun btmp cnt bitLeft count nextBit = nextBit - count := by
  induction bitLeft generalizing count nextBit with
  | zero => omega
  | succ bitLeft ih =>
    have hbit := hclear nextBit (Nat.le_refl _) (by omega)
    unfold bitmapScanRun
    rw [bitmapScanTest_eq, hbit, if_neg Bool.false_ne_true]
    dsimp only
    split
    · next heq => omega
    · next hne =>
      rw [ih (count + 1) (nextBit + 1) (by omega) (by omega) (by omega)
        fun j hj hj' => hclear j (by omega) (by omega)]
      omega

theorem bitmapScanByte_bit {btmp : Bitmap} {k : Nat} (hk : k < 8 * btmp.btmpBytesLen)
    (hset : ∀ j < k, btmp.bit j = true) (hclear : btmp.bit k = false) :
    bitmapScanByte btmp btmp.btmpBytesLen 0 < btmp.btmpBytesLen ∧
    bitmapScanByte btmp btmp.btmpBytesLen 0 * 8 +
      bitmapScanBit (btmp.bits (bitmapScanByte btmp btmp.btmpBytesLen 0)) 8 0 = k := by
  obtain ⟨-, hle, hfull, hstop⟩ := bitmapScanByte_spec btmp btmp.btmpBytesLen 0 (by omega)
  generalize bitmapScanByte btmp btmp.btmpBytesLen 0 = idx at hle hfull hstop
  -- the bytes before the one of bit `k` are full, and that one is not
  have hge : idx ≤ k / 8 := by
    by_contra hlt
    have hff := hfull (k / 8) (Nat.zero_le _) (by omega)
    unfold Bitmap.bit at hclear
    rw [hff] at hclear
    have hones : ∀ j : Fin 8, (0xff : UInt8).toBitVec.getLsbD j.val = true := by decide
    rw [hones ⟨k % 8, by omega⟩] at hclear
    exact Bool.noConfusion hclear
  have hlt : idx < btmp.btmpBytesLen := by omega
  refine ⟨hlt, ?_⟩
  obtain ⟨-, hk8, hfirst, hbefore⟩ := bitmapScanBit_spec 8 0 rfl (exists_clear_of_ne (hstop hlt))
  generalize bitmapScanBit (btmp.bits idx) 8 0 = b at hk8 hfirst hbefore
  have hbit : ∀ j < 8, btmp.bit (idx * 8 + j) = (btmp.bits idx).toBitVec.getLsbD j := by
    intro j hj
    unfold Bitmap.bit
    rw [show (idx * 8 + j) / 8 = idx by omega, show (idx * 8 + j) % 8 = j by omega]
  rcases Nat.lt_trichotomy (idx * 8 + b) k with hlt | heq | hgt
  · have := hset _ hlt
    rw [hbit b hk8, hfirst] at this
    exact Bool.noConfusion this
  · exact heq
  · have hkb : k = idx * 8 + (k - idx * 8) := by omega
    rw [hkb, hbit _ (by omega), hbefore _ (Nat.zero_le _) (by omega)] at hclear
    exact Bool.noConfusion hclear

theorem bitmapScan_first {btmp : Bitmap} {cnt k : Nat} (ndebug : Bool) (hcnt : 0 < cnt)
    (hk : k < 8 * btmp.btmpBytesLen) (hbound : k + cnt ≤ 8 * btmp.btmpBytesLen + 1)
    (hset : ∀ j < k, btmp.bit j = true)
    (hclear : ∀ j, k ≤ j → j < k + cnt → btmp.bit j = false) :
    bitmapScan ndebug btmp cnt = .ok (k : Int) := by
  obtain ⟨hlt, heq⟩ := bitmapScanByte_bit hk hset (hclear k (Nat.le_refl k) (by omega))
  unfold bitmapScan
  dsimp only
  rw [heq, assertUnless_of (decide_eq_true hlt), ok_bind, if_neg (Nat.ne_of_lt hlt)]
  split
  · rfl
  · next hmany =>
    rw [bitmapScanRun_first btmp _ 1 (k + 1) (by omega) (by omega) (by omega)
      fun j hj hj' => hclear j (by omega) (by omega)]
    exact congrArg Except.ok (show ((k + 1 : Nat) : Int) - (1 : Nat) = k by omega)

structure Bitmap.FirstClear (btmp : Bitmap) (i : Nat) : Prop where
  lt : i < 8 * btmp.btmpBytesLen
  clear : btmp.bit i = false
  set : ∀ j < i, btmp.bit j = true

theorem Bitmap.FirstClear.unique {btmp : Bitmap} {i j : Nat} (hi : btmp.FirstClear i)
    (hj : btmp.FirstClear j) : i = j := by
  rcases Nat.lt_trichotomy i j with hlt | heq | hgt
  · exact absurd (hj.set i hlt) (by rw [hi.clear]; decide)
  · exact heq
  · exact absurd (hi.set j hgt) (by rw [hj.clear]; decide)

theorem bitmapScan_eq {btmp : Bitmap} {k : Nat} (ndebug : Bool) (cnt : Nat)
    (hk : btmp.FirstClear k) : bitmapScan ndebug btmp cnt = .ok (if cnt = 1 then (k : Int)
      else bitmapScanRun btmp cnt (btmp.btmpBytesLen * 8 - k) 1 (k + 1)) := by
  obtain ⟨hlt, heq⟩ := bitmapScanByte_bit hk.lt hk.set hk.clear
  unfold bitmapScan
  dsimp only
  rw [heq, assertUnless_of (decide_eq_true hlt), ok_bind, if_neg (Nat.ne_of_lt hlt)]
  split <;> rfl

theorem bitmapScan_one_eq_ok {btmp : Bitmap} {r : Int} :
    bitmapScan false btmp 1 = .ok r ↔ ∃ i : Nat, r = i ∧ btmp.FirstClear i := by
  have hfirst : ∀ {i : Nat}, btmp.FirstClear i → bitmapScan false btmp 1 = .ok (i : Int) := by
    intro i hi
    have hlt := hi.lt
    refine bitmapScan_first false Nat.one_pos hi.lt (by omega) hi.set fun j hj hj' => ?_
    rw [show j = i by omega]
    exact hi.clear
  constructor
  · intro h
    rcases bitmapScan_ok Nat.one_pos h with ⟨-, hlt⟩ | ⟨i, rfl, hrun⟩
    · exact absurd hlt (by decide)
    · have hclear : ∃ j, btmp.bit j = false := ⟨i, hrun.clear i (le_refl i) (by omega)⟩
      have hle := Nat.find_min' hclear (hrun.clear i (le_refl i) (by omega))
      have hlt := hrun.one rfl
      have hmin : btmp.FirstClear (Nat.find hclear) := by
        refine ⟨by omega, Nat.find_spec hclear, fun j hj => ?_⟩
        simpa using Nat.find_min hclear hj
      have heq := (hfirst hmin).symm.trans h
      exact ⟨_, (Except.ok.inj heq).symm, hmin⟩
  · rintro ⟨i, rfl, hi⟩
    exact hfirst hi

/-- The last loop misses no run of `cnt` clear bits that ends before bit `nextBit + bitLeft`. -/
theorem bitmapScanRun_complete (btmp : Bitmap) {cnt i : Nat} (bitLeft count nextBit : Nat)
    (hcount : count < cnt) (hnext : count ≤ nextBit) (hstart : nextBit ≤ i + count)
    (hend : i + cnt ≤ nextBit + bitLeft)
    (hrun : ∀ j, i ≤ j → j < i + cnt → btmp.bit j = false) :
    bitmapScanRun btmp cnt bitLeft count nextBit ≠ -1 := by
  induction bitLeft generalizing count nextBit with
  | zero => omega
  | succ bitLeft ih =>
    unfold bitmapScanRun
    rw [bitmapScanTest_eq]
    by_cases hbit : btmp.bit nextBit = true
    · -- a set bit is in no run, so the run starts behind it
      have hlt : nextBit < i := by
        by_contra hge
        rw [hrun nextBit (by omega) (by omega)] at hbit
        exact Bool.noConfusion hbit
      rw [if_pos hbit]
      dsimp only
      rw [if_neg (by omega)]
      exact ih 0 (nextBit + 1) (by omega) (by omega) (by omega) (by omega)
    · rw [if_neg hbit]
      dsimp only
      split
      · omega
      · exact ih (count + 1) (nextBit + 1) (by omega) (by omega) (by omega) (by omega)

theorem bitmapScanByte_full {btmp : Bitmap}
    (hset : ∀ i < 8 * btmp.btmpBytesLen, btmp.bit i = true) :
    bitmapScanByte btmp btmp.btmpBytesLen 0 = btmp.btmpBytesLen := by
  obtain ⟨-, hle, -, hstop⟩ := bitmapScanByte_spec btmp btmp.btmpBytesLen 0 (Nat.zero_add _)
  generalize bitmapScanByte btmp btmp.btmpBytesLen 0 = idx at hle hstop
  by_contra hne
  obtain ⟨k, -, hk, hclear⟩ := exists_clear_of_ne (hstop (by omega))
  have hbit := hset (idx * 8 + k) (by omega)
  unfold Bitmap.bit at hbit
  rw [show (idx * 8 + k) / 8 = idx by omega, show (idx * 8 + k) % 8 = k by omega, hclear] at hbit
  exact Bool.noConfusion hbit

theorem bitmapScan_full {btmp : Bitmap} (hset : ∀ i < 8 * btmp.btmpBytesLen, btmp.bit i = true)
    (cnt : Nat) : bitmapScan true btmp cnt = .ok (-1) := by
  unfold bitmapScan
  dsimp only
  rw [bitmapScanByte_full hset, assertUnless_true, ok_bind, if_pos rfl]
  rfl

theorem bitmapScan_stops_iff {btmp : Bitmap} {cnt : Nat} :
    (∃ p, bitmapScan false btmp cnt = .error p) ↔ ∀ i < 8 * btmp.btmpBytesLen,
    btmp.bit i = true := by
  obtain ⟨-, hle, hfull, hstop⟩ := bitmapScanByte_spec btmp btmp.btmpBytesLen 0 (by omega)
  unfold bitmapScan
  dsimp only
  rw [assertUnless_false]
  generalize bitmapScanByte btmp btmp.btmpBytesLen 0 = idx at hle hfull hstop
  by_cases hlt : idx < btmp.btmpBytesLen
  · rw [assert_of (decide_eq_true hlt), ok_bind, if_neg (Nat.ne_of_lt hlt)]
    refine iff_of_false ?_ fun hset => ?_
    · rintro ⟨p, h⟩
      split at h <;> exact nomatch h
    · obtain ⟨k, -, hk, hclear⟩ := exists_clear_of_ne (hstop hlt)
      have hbit := hset (idx * 8 + k) (by omega)
      unfold Bitmap.bit at hbit
      rw [show (idx * 8 + k) / 8 = idx by omega, show (idx * 8 + k) % 8 = k by omega,
        hclear] at hbit
      exact Bool.noConfusion hbit
  · rw [decide_eq_false hlt]
    refine iff_of_true ⟨_, rfl⟩ fun i hi => ?_
    unfold Bitmap.bit
    rw [hfull (i / 8) (Nat.zero_le _) (by omega)]
    have hones : ∀ j : Fin 8, (0xff : UInt8).toBitVec.getLsbD j.val = true := by decide
    exact hones ⟨i % 8, by omega⟩

/-- `bitmap_scan` for more than one bit misses no run, and may take one that ends one bit too far.
-/
theorem bitmapScan_many_iff {btmp : Bitmap} {cnt : Nat} {r : Int} (hcnt : 1 < cnt)
    (h : bitmapScan false btmp cnt = .ok r) : r = -1 ↔ ¬ ∃ i, btmp.ClearRun cnt i := by
  refine ⟨fun hr hrun => ?_, fun hnone => ?_⟩
  · subst hr
    obtain ⟨i, hclear, hbound, -⟩ := hrun
    obtain ⟨-, -, hfull, hstop⟩ := bitmapScanByte_spec btmp btmp.btmpBytesLen 0 (by omega)
    unfold bitmapScan at h
    dsimp only at h
    rw [assertUnless_false, bind_eq_ok] at h
    obtain ⟨_, hassert, h⟩ := h
    have hlt := of_decide_eq_true (assert_eq_ok.mp hassert)
    rw [if_neg (Nat.ne_of_lt hlt), if_neg (Nat.ne_of_gt hcnt)] at h
    generalize bitmapScanByte btmp btmp.btmpBytesLen 0 = idx at hlt hfull hstop h
    obtain ⟨-, hk, -, hbefore⟩ := bitmapScanBit_spec 8 0 rfl (exists_clear_of_ne (hstop hlt))
    generalize bitmapScanBit (btmp.bits idx) 8 0 = k at hk hbefore h
    -- the first clear bit is not behind the run
    have hfirst : idx * 8 + k ≤ i := by
      by_contra hgt
      have hbit := hclear i (Nat.le_refl i) (by omega)
      unfold Bitmap.bit at hbit
      rcases Nat.lt_or_ge (i / 8) idx with hbyte | hbyte
      · have hones : ∀ j : Fin 8, (0xff : UInt8).toBitVec.getLsbD j.val = true := by decide
        rw [hfull (i / 8) (Nat.zero_le _) hbyte, hones ⟨i % 8, by omega⟩] at hbit
        exact Bool.noConfusion hbit
      · rw [show i / 8 = idx by omega, hbefore (i % 8) (Nat.zero_le _) (by omega)] at hbit
        exact Bool.noConfusion hbit
    exact bitmapScanRun_complete btmp _ 1 (idx * 8 + k + 1) hcnt (by omega) (by omega)
      (by omega) hclear
      (Except.ok.inj h)
  · rcases bitmapScan_ok (by omega) h with ⟨hr, -⟩ | ⟨i, -, hrun⟩
    · exact hr
    · exact absurd ⟨i, hrun⟩ hnone

end OriginOS
