import OriginOS.Kernel.Exhaustion

/-! `bitmap_scan` in the 32-bit words of the machine, with the bits that it examines. Bit numbers
are `uint32_t`, so in a bitmap of 2^29 bytes or more they run back to 0; the result is an `int`. -/

namespace OriginOS

open Lib

/-- A number as the `int` with the same low 32 bits. -/
def int32 (n : Int) : Int := (n + 2 ^ 31) % 2 ^ 32 - 2 ^ 31

/-- A scan of a bitmap: the bits that it examines, and what it returns. -/
structure BitScan where
  examined : List Nat
  result : Int

/-- The first loop of `bitmap_scan` with the bits of the bytes that it examines. The test of the
byte stands before the test of the index. -/
def wordScanByte (btmp : Bitmap) : Nat → Nat → List Nat × Nat
  | 0, idxByte => ([], idxByte)
  | n + 1, idxByte =>
    if btmp.bits idxByte = 0xff ∧ idxByte < btmp.btmpBytesLen then
      let rest := wordScanByte btmp n (idxByte + 1)
      (List.range' (8 * idxByte) 8 ++ rest.1, rest.2)
    else (List.range' (8 * idxByte) 8, idxByte)

/-- The last loop of `bitmap_scan` with the bits that it tests. -/
def wordScanRun (btmp : Bitmap) (cnt : Nat) : Nat → Nat → Nat → List Nat × Int
  | 0, _, _ => ([], -1)
  | bitLeft + 1, count, nextBit =>
    let count := if bitmapScanTest btmp nextBit then 0 else (count + 1) % 2 ^ 32
    if count = cnt then ([nextBit], int32 (nextBit - cnt + 1))
    else
      let rest := wordScanRun btmp cnt bitLeft count ((nextBit + 1) % 2 ^ 32)
      (nextBit :: rest.1, rest.2)

def wordScan (ndebug : Bool) (btmp : Bitmap) (cnt : Nat) : Except Panic BitScan := do
  let (seen, idxByte) := wordScanByte btmp (btmp.btmpBytesLen + 1) 0
  assertUnless ndebug (idxByte < btmp.btmpBytesLen)
    ⟨"./lib/kernel/bitmap.c", 28, "bitmap_scan", "idx_byte < btmp->btmp_bytes_len"⟩
  if idxByte = btmp.btmpBytesLen then pure ⟨seen, -1⟩
  else
    let bitIdxStart : Nat := (idxByte * 8 + bitmapScanBit (btmp.bits idxByte) 8 0) % 2 ^ 32
    if cnt = 1 then pure ⟨seen, int32 bitIdxStart⟩
    else
      let bitLeft : Nat := (btmp.btmpBytesLen * 8 + 2 ^ 32 - bitIdxStart) % 2 ^ 32
      let run := wordScanRun btmp cnt bitLeft 1 ((bitIdxStart + 1) % 2 ^ 32)
      pure ⟨seen ++ run.1, run.2⟩

namespace Bitmap

/-- The `cnt` bits from bit `i` on are clear, in the bitmap or behind it. -/
def ClearFrom (btmp : Bitmap) (cnt i : Nat) : Prop :=
  ∀ j, i ≤ j → j < i + cnt → btmp.bit j = false

/-- The bitmap as 32-bit bit numbers see it: behind bit 2^32 - 1 comes bit 0 again. -/
def wrapped (btmp : Bitmap) : Bitmap := { btmp with bits := fun k => btmp.bits (k % 2 ^ 29) }

theorem bit_wrapped (btmp : Bitmap) (i : Nat) : btmp.wrapped.bit i = btmp.bit (i % 2 ^ 32) := by
  unfold bit wrapped
  dsimp only
  rw [show i / 8 % 2 ^ 29 = i % 2 ^ 32 / 8 by omega, show i % 2 ^ 32 % 8 = i % 8 by omega]

end Bitmap

/-! ### The loops -/

theorem int32_of_lt {n : Nat} (h : n < 2 ^ 31) : int32 n = n := by
  unfold int32
  omega

theorem int32_neg_one : int32 (-1) = -1 := by decide

theorem eq_of_int32_eq {n i : Nat} (hn : n < 2 ^ 32) (h : int32 n = i) : n = i := by
  unfold int32 at h
  omega

theorem wordScanByte_snd (btmp : Bitmap) (n idx : Nat) (hn : idx + n = btmp.btmpBytesLen) :
    (wordScanByte btmp (n + 1) idx).2 = bitmapScanByte btmp n idx := by
  induction n generalizing idx with
  | zero =>
    unfold wordScanByte bitmapScanByte
    rw [if_neg (by omega)]
  | succ n ih =>
    rw [wordScanByte, bitmapScanByte]
    split
    · exact ih (idx + 1) (by omega)
    · rfl

theorem wordScanByte_fst (btmp : Bitmap) (n idx : Nat) :
    ∀ k ∈ (wordScanByte btmp n idx).1, k < 8 * (wordScanByte btmp n idx).2 + 8 := by
  induction n generalizing idx with
  | zero => exact fun k hk => absurd hk List.not_mem_nil
  | succ n ih =>
    have hmono : ∀ m j, j ≤ (wordScanByte btmp m j).2 := by
      intro m
      induction m with
      | zero => exact fun j => Nat.le_refl j
      | succ m ihm =>
        intro j
        rw [wordScanByte]
        split
        · exact Nat.le_of_succ_le (ihm (j + 1))
        · exact Nat.le_refl j
    intro k hk
    rw [wordScanByte] at hk ⊢
    split at hk
    · next hfull =>
      rw [if_pos hfull]
      rcases List.mem_append.mp hk with hbyte | hrest
      · rw [List.mem_range'_1] at hbyte
        have := hmono n (idx + 1)
        show k < 8 * (wordScanByte btmp n (idx + 1)).2 + 8
        omega
      · exact ih (idx + 1) k hrest
    · next hstop =>
      rw [if_neg hstop]
      rw [List.mem_range'_1] at hk
      exact hk.2

/-- The last loop tests consecutive bit numbers, modulo 2^32, up to the end of the run that it
finds, and finds what the loop over unbounded numbers finds in the wrapped bitmap. -/
theorem wordScanRun_eq (btmp : Bitmap) {cnt : Nat} (hcnt : cnt < 2 ^ 32) (bitLeft count p : Nat)
    (hcount : count < cnt) (hp : count ≤ p) :
    ∃ m ≤ bitLeft, wordScanRun btmp cnt bitLeft count (p % 2 ^ 32) =
        ((List.range' p m).map (· % 2 ^ 32),
          int32 (bitmapScanRun btmp.wrapped cnt bitLeft count p)) ∧
      ((bitmapScanRun btmp.wrapped cnt bitLeft count p = -1 ∧ m = bitLeft) ∨
        ∃ i : Nat, bitmapScanRun btmp.wrapped cnt bitLeft count p = i ∧ i + cnt = p + m) := by
  induction bitLeft generalizing count p with
  | zero => exact ⟨0, Nat.le_refl 0, rfl, .inl ⟨rfl, rfl⟩⟩
  | succ bitLeft ih =>
    rw [wordScanRun, bitmapScanRun, bitmapScanTest_eq, bitmapScanTest_eq, Bitmap.bit_wrapped,
      Nat.mod_eq_of_lt (show count + 1 < 2 ^ 32 by omega)]
    generalize hc : (if btmp.bit (p % 2 ^ 32) then 0 else count + 1) = c
    have hle : c ≤ cnt ∧ c ≤ p + 1 := by
      rw [← hc]
      split <;> omega
    by_cases heq : c = cnt
    · refine ⟨1, by omega, ?_, .inr ⟨p + 1 - cnt, ?_, by omega⟩⟩
      · dsimp only
        rw [if_pos heq, if_pos heq]
        refine Prod.ext rfl ?_
        unfold int32
        omega
      · rw [if_pos heq]
        omega
    · obtain ⟨m, hm, hrest, hend⟩ := ih c (p + 1) (by omega) hle.2
      refine ⟨m + 1, by omega, ?_, ?_⟩
      · dsimp only
        rw [if_neg heq, if_neg heq, Nat.mod_add_mod, hrest]
        rfl
      · rw [if_neg heq]
        rcases hend with ⟨hnone, rfl⟩ | ⟨i, hi, hle⟩
        · exact .inl ⟨hnone, rfl⟩
        · exact .inr ⟨i, hi, by omega⟩

theorem bitmapScanRun_least (btmp : Bitmap) {cnt i : Nat} (bitLeft count nextBit : Nat)
    (hcount : count < cnt) (hnext : count ≤ nextBit)
    (h : bitmapScanRun btmp cnt bitLeft count nextBit = i) :
    nextBit ≤ i + count ∧ ∀ j, nextBit ≤ j + count → j < i → ¬ btmp.ClearFrom cnt j := by
  induction bitLeft generalizing count nextBit with
  | zero => exact absurd (show (-1 : Int) = i from h) (by omega)
  | succ bitLeft ih =>
    unfold bitmapScanRun at h
    rw [bitmapScanTest_eq] at h
    by_cases hbit : btmp.bit nextBit = true
    · rw [if_pos hbit] at h
      dsimp only at h
      rw [if_neg (by omega)] at h
      obtain ⟨hle, hleast⟩ := ih 0 (nextBit + 1) (by omega) (by omega) h
      refine ⟨by omega, fun j hj hlt hrun => ?_⟩
      rcases Nat.lt_or_ge nextBit j with hbehind | hbefore
      · exact hleast j (by omega) hlt hrun
      · -- the set bit lies in every run that starts before it
        rw [hrun nextBit hbefore (by omega)] at hbit
        exact Bool.noConfusion hbit
    · rw [if_neg hbit] at h
      dsimp only at h
      split at h
      · exact ⟨by omega, fun j hj hlt => absurd hlt (by omega)⟩
      · obtain ⟨hle, hleast⟩ := ih (count + 1) (nextBit + 1) (by omega) (by omega) h
        exact ⟨by omega, fun j hj hlt => hleast j (by omega) hlt⟩

theorem bitmapScanRun_full {btmp : Bitmap} (hset : ∀ i, btmp.bit i = true) {cnt : Nat}
    (hcnt : 0 < cnt) (bitLeft count nextBit : Nat) :
    bitmapScanRun btmp cnt bitLeft count nextBit = -1 := by
  induction bitLeft generalizing count nextBit with
  | zero => rfl
  | succ bitLeft ih =>
    unfold bitmapScanRun
    rw [bitmapScanTest_eq, if_pos (hset nextBit)]
    dsimp only
    rw [if_neg (by omega)]
    exact ih 0 (nextBit + 1)

theorem bitmapScanRun_congr {btmp btmp' : Bitmap} {cnt : Nat} (bitLeft count nextBit : Nat)
    (h : ∀ j, nextBit ≤ j → j < nextBit + bitLeft → btmp.bit j = btmp'.bit j) :
    bitmapScanRun btmp cnt bitLeft count nextBit =
      bitmapScanRun btmp' cnt bitLeft count nextBit := by
  induction bitLeft generalizing count nextBit with
  | zero => rfl
  | succ bitLeft ih =>
    unfold bitmapScanRun
    rw [bitmapScanTest_eq, bitmapScanTest_eq, h nextBit (Nat.le_refl _) (by omega)]
    dsimp only
    rw [ih _ (nextBit + 1) fun j hj hj' => h j (by omega) (by omega)]

/-! ### The scan -/

section Scans

variable {btmp : Bitmap} {cnt k : Nat}

theorem wordScan_eq (ndebug : Bool) (hk : btmp.FirstClear k) :
    ∃ seen, (∀ b ∈ seen, b < 8 * btmp.btmpBytesLen) ∧ wordScan ndebug btmp cnt = .ok
      (if cnt = 1 then ⟨seen, int32 (k % 2 ^ 32 : Nat)⟩
        else
          let run := wordScanRun btmp cnt
            ((btmp.btmpBytesLen * 8 + 2 ^ 32 - k % 2 ^ 32) % 2 ^ 32) 1 ((k % 2 ^ 32 + 1) % 2 ^ 32)
          ⟨seen ++ run.1, run.2⟩) := by
  obtain ⟨hlt, heq⟩ := bitmapScanByte_bit hk.lt hk.set hk.clear
  have hsnd := wordScanByte_snd btmp btmp.btmpBytesLen 0 (Nat.zero_add _)
  have hseen := wordScanByte_fst btmp (btmp.btmpBytesLen + 1) 0
  unfold wordScan
  generalize wordScanByte btmp (btmp.btmpBytesLen + 1) 0 = first at hsnd hseen
  obtain ⟨seen, idxByte⟩ := first
  dsimp only at hsnd hseen ⊢
  rw [← hsnd] at hlt heq
  refine ⟨seen, fun b hb => ?_, ?_⟩
  · have := hseen b hb
    omega
  · rw [heq, assertUnless_of (decide_eq_true hlt), ok_bind, if_neg (Nat.ne_of_lt hlt)]
    split <;> rfl

theorem Bitmap.FirstClear.not_clearFrom (hk : btmp.FirstClear k) (hcnt : 0 < cnt) {j : Nat}
    (hj : j < k) : ¬ btmp.ClearFrom cnt j := by
  intro hrun
  have hset := hk.set j hj
  rw [hrun j (Nat.le_refl j) (by omega)] at hset
  exact Bool.noConfusion hset

theorem Bitmap.FirstClear.clearFrom_of_run (hk : btmp.FirstClear k) (hcnt : 1 < cnt) {n i : Nat}
    (h : bitmapScanRun btmp cnt n 1 (k + 1) = i) : btmp.ClearFrom cnt i := by
  have hstart : ∀ j, k + 1 - 1 ≤ j → j < k + 1 → btmp.bit j = false := by
    intro j hj hj'
    rw [show j = k by omega]
    exact hk.clear
  rcases bitmapScanRun_spec btmp n 1 (k + 1) hcnt (by omega) hstart with
    hnone | ⟨i', hi', -, hclear⟩
  · omega
  · rw [h] at hi'
    rw [Int.ofNat.inj hi']
    exact hclear

/-- A bitmap whose bit numbers, with the one behind it, are 32-bit words: the last loop tests the
bits behind the first clear one, up to the end of the run that it finds or to the bit behind the
bitmap. -/
theorem wordScan_run (ndebug : Bool) (hk : btmp.FirstClear k) (hlen : btmp.btmpBytesLen < 2 ^ 29)
    (hcnt : 1 < cnt) (hword : cnt < 2 ^ 32) :
    ∃ seen r, (∀ b ∈ seen, b < 8 * btmp.btmpBytesLen) ∧ ∃ m ≤ 8 * btmp.btmpBytesLen - k,
      bitmapScanRun btmp cnt (btmp.btmpBytesLen * 8 - k) 1 (k + 1) = r ∧
      wordScan ndebug btmp cnt = .ok ⟨seen ++ List.range' (k + 1) m, int32 r⟩ ∧
      ((r = -1 ∧ m = 8 * btmp.btmpBytesLen - k) ∨ ∃ i : Nat, r = i ∧ i + cnt = k + 1 + m) := by
  have hlt := hk.lt
  obtain ⟨seen, hseen, hscan⟩ := @wordScan_eq btmp cnt k ndebug hk
  rw [if_neg (by omega), Nat.mod_eq_of_lt (show k < 2 ^ 32 by omega),
    show (btmp.btmpBytesLen * 8 + 2 ^ 32 - k) % 2 ^ 32 =
      8 * btmp.btmpBytesLen - k by omega] at hscan
  obtain ⟨m, hm, hrun, hend⟩ :=
    wordScanRun_eq btmp hword (8 * btmp.btmpBytesLen - k) 1 (k + 1) hcnt (by omega)
  have hagree : ∀ j, k + 1 ≤ j → j < k + 1 + (8 * btmp.btmpBytesLen - k) →
      btmp.wrapped.bit j = btmp.bit j := by
    intro j hj hj'
    rw [Bitmap.bit_wrapped, Nat.mod_eq_of_lt (by omega)]
  rw [bitmapScanRun_congr _ _ _ hagree] at hrun hend
  have hrange : (List.range' (k + 1) m).map (· % 2 ^ 32) = List.range' (k + 1) m := by
    rw [List.map_congr_left (g := id), List.map_id]
    intro b hb
    rw [List.mem_range'_1] at hb
    exact Nat.mod_eq_of_lt (by omega)
  rw [hrange] at hrun
  rw [Nat.mul_comm btmp.btmpBytesLen 8]
  exact ⟨seen, _, hseen, m, hm, rfl, by rw [hscan, hrun], hend⟩

/-- The last loop finds the first run of clear bits that ends with the bit behind the bitmap or
before it. -/
theorem wordScan_many (ndebug : Bool) (hk : btmp.FirstClear k) (hlen : btmp.btmpBytesLen < 2 ^ 29)
    (hcnt : 1 < cnt) (hword : cnt < 2 ^ 32) :
    ∃ seen m r, (∀ b ∈ seen, b < 8 * btmp.btmpBytesLen) ∧
      wordScan ndebug btmp cnt = .ok ⟨seen ++ List.range' (k + 1) m, r⟩ ∧
      ((r = -1 ∧ m = 8 * btmp.btmpBytesLen - k ∧
          ∀ i, i + cnt ≤ 8 * btmp.btmpBytesLen + 1 → ¬ btmp.ClearFrom cnt i) ∨
        ∃ i : Nat, r = int32 i ∧ btmp.ClearFrom cnt i ∧ i + cnt = k + 1 + m ∧
          m ≤ 8 * btmp.btmpBytesLen - k ∧ ∀ j < i, ¬ btmp.ClearFrom cnt j) := by
  have hlt := hk.lt
  obtain ⟨seen, r, hseen, m, hm, hrun, hscan, hend⟩ := wordScan_run ndebug hk hlen hcnt hword
  refine ⟨seen, m, int32 r, hseen, hscan, ?_⟩
  rcases hend with ⟨rfl, rfl⟩ | ⟨i, rfl, hlast⟩
  · refine .inl ⟨int32_neg_one, rfl, fun i hi hclear => ?_⟩
    rcases Nat.lt_or_ge i k with hbefore | hbehind
    · exact hk.not_clearFrom (by omega) hbefore hclear
    · exact bitmapScanRun_complete btmp _ 1 (k + 1) hcnt (by omega) (by omega)
        (by omega) hclear hrun
  · obtain ⟨-, hleast⟩ := bitmapScanRun_least btmp _ 1 (k + 1) hcnt (by omega) hrun
    refine .inr ⟨i, rfl, hk.clearFrom_of_run hcnt hrun, hlast, hm, fun j hj => ?_⟩
    rcases Nat.lt_or_ge j k with hbefore | hbehind
    · exact hk.not_clearFrom (by omega) hbefore
    · exact hleast j (by omega) hj

/-- In a bitmap of 2^29 bytes or more, the run that the last loop finds lies below bit 2^32: the
bit numbers run back to bit 0, but never as far as the first clear bit. -/
theorem wordScan_large (ndebug : Bool) (hk : btmp.FirstClear k) (hlen : 2 ^ 29 ≤ btmp.btmpBytesLen)
    (hcnt : 1 < cnt) (hword : cnt < 2 ^ 32) :
    ∃ seen r, (∀ b ∈ seen, b < 8 * btmp.btmpBytesLen) ∧
      wordScan ndebug btmp cnt = .ok ⟨seen, r⟩ ∧ (r = -1 ∨ ∃ i : Nat, r = int32 i ∧
        i + cnt ≤ 2 ^ 32) := by
  obtain ⟨seen, hseen, hscan⟩ := @wordScan_eq btmp cnt k ndebug hk
  rw [if_neg (by omega)] at hscan
  generalize hn : (btmp.btmpBytesLen * 8 + 2 ^ 32 - k % 2 ^ 32) % 2 ^ 32 = n at hscan
  obtain ⟨m, hm, hrun, -⟩ := wordScanRun_eq btmp hword n 1 (k % 2 ^ 32 + 1) hcnt (by omega)
  refine ⟨_, _, fun b hb => ?_, by rw [hscan, hrun], ?_⟩
  · rcases List.mem_append.mp hb with hfirst | htested
    · exact hseen b hfirst
    · obtain ⟨q, -, rfl⟩ := List.mem_map.mp htested
      have := Nat.mod_lt q (show 0 < 2 ^ 32 by decide)
      omega
  rcases Nat.lt_or_ge k (2 ^ 32) with hsmall | hbig
  swap
  · -- every bit that a word can number is set
    refine .inl ?_
    rw [bitmapScanRun_full (fun i => ?_) (by omega)]
    · exact int32_neg_one
    · rw [Bitmap.bit_wrapped]
      exact hk.set _ (Nat.lt_of_lt_of_le (Nat.mod_lt _ (by decide)) hbig)
  rw [Nat.mod_eq_of_lt hsmall] at hn ⊢
  have hstart : ∀ j, k + 1 - 1 ≤ j → j < k + 1 → btmp.wrapped.bit j = false := by
    intro j hj hj'
    rw [show j = k by omega, Bitmap.bit_wrapped, Nat.mod_eq_of_lt hsmall]
    exact hk.clear
  rcases bitmapScanRun_spec btmp.wrapped n 1 (k + 1) hcnt (by omega) hstart with
    hnone | ⟨i, hi, hle, hclear⟩
  · exact .inl (by rw [hnone]; exact int32_neg_one)
  · refine .inr ⟨i, by rw [hi], ?_⟩
    by_contra hover
    -- the run has a bit at 2^32 or behind it, that is, one before the first clear bit
    have hbit := hclear (max i (2 ^ 32)) (by omega) (by omega)
    rw [Bitmap.bit_wrapped] at hbit
    rcases Nat.eq_zero_or_pos k with hzero | hpos
    · omega
    · have hset := hk.set (max i (2 ^ 32) % 2 ^ 32) (by omega)
      rw [hbit] at hset
      exact Bool.noConfusion hset

theorem wordScan_full (ndebug : Bool) (hfull : ¬ btmp.AnyClear) :
    bitmapScan ndebug btmp cnt = (wordScan ndebug btmp cnt).map BitScan.result ∧
    ∀ sc, wordScan ndebug btmp cnt = .ok sc → sc.result = -1 := by
  have hidx := bitmapScanByte_full (Bitmap.not_anyClear.mp hfull)
  have hsnd := wordScanByte_snd btmp btmp.btmpBytesLen 0 (Nat.zero_add _)
  unfold wordScan bitmapScan
  generalize wordScanByte btmp (btmp.btmpBytesLen + 1) 0 = first at hsnd
  obtain ⟨seen, idxByte⟩ := first
  dsimp only at hsnd ⊢
  rw [hsnd, hidx, decide_eq_false (Nat.lt_irrefl _), if_pos rfl, if_pos rfl]
  cases ndebug with
  | false => exact ⟨rfl, nofun⟩
  | true => exact ⟨rfl, fun sc h => by rw [← Except.ok.inj h]⟩

end Scans

/-- Where the results are `int`s, the scan over unbounded numbers is the one of the machine. -/
theorem bitmapScan_eq_wordScan (ndebug : Bool) (btmp : Bitmap) {cnt : Nat}
    (hlen : btmp.btmpBytesLen < 2 ^ 28) (hcnt : 0 < cnt) (hword : cnt < 2 ^ 32) :
    bitmapScan ndebug btmp cnt = (wordScan ndebug btmp cnt).map BitScan.result := by
  by_cases hany : btmp.AnyClear
  swap
  · exact (wordScan_full ndebug hany).1
  obtain ⟨k, hk⟩ := hany.firstClear
  have hlt := hk.lt
  by_cases hone : cnt = 1
  · obtain ⟨seen, -, hscan⟩ := @wordScan_eq btmp cnt k ndebug hk
    rw [bitmapScan_eq ndebug cnt hk, hscan, if_pos hone, if_pos hone]
    show Except.ok (k : Int) = .ok (int32 (k % 2 ^ 32 : Nat))
    rw [int32_of_lt (by omega), Nat.mod_eq_of_lt (by omega)]
  · obtain ⟨seen, r, -, m, hm, hrun, hscan, hend⟩ :=
      wordScan_run ndebug hk (by omega) (show 1 < cnt by omega) hword
    rw [bitmapScan_eq ndebug cnt hk, if_neg hone, hrun, hscan]
    show Except.ok r = .ok (int32 r)
    rcases hend with ⟨rfl, -⟩ | ⟨i, rfl, hlast⟩
    · rw [int32_neg_one]
    · rw [int32_of_lt (by omega)]

/-! ### Bounds -/

/-- Every bit that the scan examines lies in the bitmap, and so does the run that it returns. -/
structure BitScan.InBounds (sc : BitScan) (btmp : Bitmap) (cnt : Nat) : Prop where
  examined : ∀ b ∈ sc.examined, b < 8 * btmp.btmpBytesLen
  found : ∀ i : Nat, sc.result = i → i + cnt ≤ 8 * btmp.btmpBytesLen

section Bounds

variable {btmp : Bitmap} {cnt : Nat}

theorem wordScan_one_inBounds (ndebug : Bool) (hany : btmp.AnyClear) :
    ∃ sc, wordScan ndebug btmp 1 = .ok sc ∧ sc.InBounds btmp 1 := by
  obtain ⟨k, hk⟩ := hany.firstClear
  obtain ⟨seen, hseen, hscan⟩ := @wordScan_eq btmp 1 k ndebug hk
  refine ⟨_, hscan, hseen, fun i hi => ?_⟩
  have hlt := hk.lt
  have heq := eq_of_int32_eq (Nat.mod_lt k (by decide)) hi
  have hle := Nat.mod_le k (2 ^ 32)
  omega

/-- In a bitmap of less than 2^29 bytes, a search that finds no run inside the bitmap examines the
bit behind it. -/
theorem wordScan_inBounds_iff (ndebug : Bool) (hany : btmp.AnyClear) (hcnt : 1 < cnt)
    (hword : cnt < 2 ^ 32) (hlen : btmp.btmpBytesLen < 2 ^ 29) :
    (∃ sc, wordScan ndebug btmp cnt = .ok sc ∧ sc.InBounds btmp cnt) ↔ btmp.HasRun cnt := by
  obtain ⟨k, hk⟩ := hany.firstClear
  have hlt := hk.lt
  obtain ⟨seen, m, r, hseen, hscan, hr⟩ := wordScan_many ndebug hk hlen hcnt hword
  constructor
  · rintro ⟨sc, hok, hexamined, -⟩
    obtain rfl := Except.ok.inj (hscan.symm.trans hok)
    -- not all the bits up to the end of the bitmap have been tested
    have hm : m < 8 * btmp.btmpBytesLen - k := by
      by_contra hge
      refine absurd (hexamined (8 * btmp.btmpBytesLen) ?_) (Nat.lt_irrefl _)
      exact List.mem_append_right _ (List.mem_range'_1.mpr (by omega))
    rcases hr with ⟨-, rfl, -⟩ | ⟨i, -, hclear, hlast, -⟩
    · exact absurd hm (Nat.lt_irrefl _)
    · exact ⟨i, by omega, hclear⟩
  · rintro ⟨i₀, hi₀, hclear₀⟩
    refine ⟨_, hscan, ?_⟩
    rcases hr with ⟨-, -, hnone⟩ | ⟨i, hr, -, hlast, -, hleast⟩
    · exact absurd hclear₀ (hnone i₀ (by omega))
    have hle : i ≤ i₀ := by
      by_contra hgt
      exact hleast i₀ (by omega) hclear₀
    refine ⟨fun b hb => ?_, fun j hj => ?_⟩
    · rcases List.mem_append.mp hb with hfirst | htested
      · exact hseen b hfirst
      · have := List.mem_range'_1.mp htested
        omega
    · have := eq_of_int32_eq (show i < 2 ^ 32 by omega) (hr.symm.trans hj)
      omega

theorem wordScan_large_inBounds (ndebug : Bool) (hany : btmp.AnyClear) (hcnt : 1 < cnt)
    (hword : cnt < 2 ^ 32) (hlen : 2 ^ 29 ≤ btmp.btmpBytesLen) :
    ∃ sc, wordScan ndebug btmp cnt = .ok sc ∧ sc.InBounds btmp cnt := by
  obtain ⟨k, hk⟩ := hany.firstClear
  obtain ⟨seen, r, hseen, hscan, hr⟩ := wordScan_large ndebug hk hlen hcnt hword
  refine ⟨_, hscan, hseen, fun i hi => ?_⟩
  dsimp only at hi
  rcases hr with rfl | ⟨i', hr, hle⟩
  · omega
  · have := eq_of_int32_eq (show i' < 2 ^ 32 by omega) (hr.symm.trans hi)
    omega

end Bounds

/-- `bitmap_scan` stays in bounds exactly when there is a run inside the bitmap to find, or when the
bitmap is so large that every 32-bit number is that of a bit inside it. -/
theorem bitmap_scan_bounds_iff (ndebug : Bool) (btmp : Bitmap) (cnt : Nat) (hany : btmp.AnyClear)
    (hcnt : 1 ≤ cnt) (hword : cnt < 2 ^ 32) :
    (∃ sc, wordScan ndebug btmp cnt = .ok sc ∧ sc.InBounds btmp cnt) ↔
      btmp.HasRun cnt ∨ 2 ^ 29 ≤ btmp.btmpBytesLen := by
  rcases Nat.eq_or_lt_of_le hcnt with rfl | hmany
  · exact iff_of_true (wordScan_one_inBounds ndebug hany) (.inl (Bitmap.hasRun_one.mpr hany))
  rcases Nat.lt_or_ge btmp.btmpBytesLen (2 ^ 29) with hsmall | hlarge
  · rw [wordScan_inBounds_iff ndebug hany hmany hword hsmall]
    exact (or_iff_left (Nat.not_le.mpr hsmall)).symm
  · exact iff_of_true (wordScan_large_inBounds ndebug hany hmany hword hlarge) (.inr hlarge)

/-- One byte of which the two high bits are clear, in front of other data. -/
def twoClear : Bitmap := ⟨1, 0, fun k => if k = 0 then 0x3f else 0xff⟩

theorem bitmap_scan_bounds_twoClear :
    ∃ sc, wordScan false twoClear 2 = .ok sc ∧ sc.InBounds twoClear 2 := by
  refine (bitmap_scan_bounds_iff false twoClear 2 ⟨6, by decide, rfl⟩ (by decide)
    (by decide)).mpr ?_
  refine .inl ⟨6, by decide, fun j hj hj' => ?_⟩
  obtain rfl | rfl : j = 6 ∨ j = 7 := by omega
  · rfl
  · rfl

/-- With one page of the kernel's range left and a clear bit behind the bitmap, the scan for two
pages leaves the bitmap, and `vaddr_get` sets the bit behind it and hands out the page behind the
range. -/
theorem bitmap_scan_leaves_bitmap :
    (¬ ∃ sc, wordScan false lastPage.kernelVaddr.vaddrBitmap 2 = .ok sc ∧
      sc.InBounds lastPage.kernelVaddr.vaddrBitmap 2) ∧
    lastPage.kernelVaddr.vaddrBitmap.btmpBytesLen = 480 ∧
    lastPage.kernelVaddr.vaddrBitmap.bit 3840 = false ∧
    ∃ t, Mem.vaddrGet .kernel 2 lastPage = .ok (kHeapStart + 3839 * 4096, t) ∧
      t.kernelVaddr.vaddrBitmap.bit 3840 = true := by
  have hset : ∀ j < 3839, lastPage.kernelVaddr.vaddrBitmap.bit j = true :=
    fun j hj => bit_lastPage hj
  have hclear : ∀ j, 3839 ≤ j → j < 3839 + 2 → lastPage.kernelVaddr.vaddrBitmap.bit j = false := by
    intro j hj hj'
    obtain rfl | rfl : j = 3839 ∨ j = 3840 := by omega
    · rfl
    · rfl
  have hlen : lastPage.kernelVaddr.vaddrBitmap.btmpBytesLen = 480 := rfl
  refine ⟨?_, hlen, hclear 3840 (by decide) (by decide), ?_⟩
  · rw [wordScan_inBounds_iff false ⟨3839, by decide, rfl⟩ (by decide) (by decide) (by decide)]
    rintro ⟨i, hi, hrun⟩
    rw [hlen] at hi
    have hbit := hrun i (Nat.le_refl i) (by omega)
    rw [hset i (by omega)] at hbit
    exact Bool.noConfusion hbit
  · have hscan :
        bitmapScan false (lastPage.vaddr .kernel).vaddrBitmap 2 = .ok ((3839 : Nat) : Int) :=
      bitmapScan_first false (by decide) (by decide) (by decide) hset hclear
    refine ⟨lastPage.setVaddrBitmap .kernel (lastPage.kernelVaddr.vaddrBitmap.putRun true 2 3839),
      ?_, ?_⟩
    · unfold Mem.vaddrGet
      rw [Mem.read_bind, show lastPage.ndebug = false from rfl, hscan, bind_of_ok Mem.ofPanic_ok,
        if_neg (by omega), Int.toNat_natCast, Mem.bitmapSetLoop_one, bind_of_ok Mem.ofPanic_ok,
        Mem.write_bind]
      rfl
    · show (lastPage.kernelVaddr.vaddrBitmap.putRun true 2 3839).bit 3840 = true
      rw [Bitmap.bit_putRun]
      rfl

/-! ### First fit -/

/-- `bitmap_scan` returns the first run of clear bits, or -1 when the bitmap has none. -/
def BitScan.FirstFit (sc : BitScan) (btmp : Bitmap) (cnt : Nat) : Prop :=
  (∃ i : Nat, sc.result = i ∧ btmp.ClearFrom cnt i ∧ ∀ j < i, ¬ btmp.ClearFrom cnt j) ∨
    (sc.result = -1 ∧ ¬ btmp.HasRun cnt)

/-- Bit `j` is one of the run, given as first bit and length. -/
def InRun (r : Nat × Nat) (j : Nat) : Prop := r.1 ≤ j ∧ j < r.1 + r.2

/-- One after the other, requests for `cnt` bits: a run that `bitmap_scan` finds is taken with
`bitmap_set`. `taken` has the runs. -/
inductive RunsTaken (ndebug : Bool) : Bitmap → List (Nat × Nat) → Bitmap → Prop
  | nil (btmp : Bitmap) : RunsTaken ndebug btmp [] btmp
  | found {btmp btmp' last : Bitmap} {cnt i : Nat} {sc : BitScan} {taken : List (Nat × Nat)} :
    1 ≤ cnt → cnt < 2 ^ 32 → wordScan ndebug btmp cnt = .ok sc → sc.result = i →
    Mem.bitmapSetLoop ndebug 1 cnt i btmp = .ok btmp' → RunsTaken ndebug btmp' taken last →
    RunsTaken ndebug btmp ((i, cnt) :: taken) last
  | none {btmp last : Bitmap} {cnt : Nat} {sc : BitScan} {taken : List (Nat × Nat)} :
    1 ≤ cnt → cnt < 2 ^ 32 → wordScan ndebug btmp cnt = .ok sc → sc.result = -1 →
    RunsTaken ndebug btmp taken last → RunsTaken ndebug btmp taken last

section FirstFit

variable {btmp : Bitmap} {cnt : Nat}

theorem wordScan_firstFit (ndebug : Bool) (hany : btmp.AnyClear) (hcnt : 1 ≤ cnt)
    (hword : cnt < 2 ^ 32) (hlen : btmp.btmpBytesLen < 2 ^ 28) :
    ∃ sc, wordScan ndebug btmp cnt = .ok sc ∧ sc.FirstFit btmp cnt := by
  obtain ⟨k, hk⟩ := hany.firstClear
  have hlt := hk.lt
  rcases Nat.eq_or_lt_of_le hcnt with rfl | hmany
  · obtain ⟨seen, -, hscan⟩ := @wordScan_eq btmp 1 k ndebug hk
    rw [if_pos rfl, Nat.mod_eq_of_lt (by omega), int32_of_lt (by omega)] at hscan
    refine ⟨_, hscan, .inl ⟨k, rfl, fun j hj hj' => ?_, fun j hj => ?_⟩⟩
    · rw [show j = k by omega]
      exact hk.clear
    · exact hk.not_clearFrom Nat.one_pos hj
  · obtain ⟨seen, m, r, -, hscan, hr⟩ := wordScan_many ndebug hk (by omega) hmany hword
    refine ⟨_, hscan, ?_⟩
    rcases hr with ⟨hr, -, hnone⟩ | ⟨i, hr, hclear, hlast, hm, hleast⟩
    · refine .inr ⟨hr, ?_⟩
      rintro ⟨i, hi, hclear⟩
      exact hnone i (by omega) hclear
    · rw [int32_of_lt (by omega)] at hr
      exact .inl ⟨i, hr, hclear, hleast⟩

theorem wordScan_clearFrom {ndebug : Bool} {sc : BitScan} {i : Nat} (hcnt : 1 ≤ cnt)
    (hword : cnt < 2 ^ 32) (hlen : btmp.btmpBytesLen < 2 ^ 28)
    (h : wordScan ndebug btmp cnt = .ok sc) (hi : sc.result = i) : btmp.ClearFrom cnt i := by
  by_cases hany : btmp.AnyClear
  · obtain ⟨sc', hscan, hfit⟩ := wordScan_firstFit ndebug hany hcnt hword hlen
    obtain rfl := Except.ok.inj (hscan.symm.trans h)
    rcases hfit with ⟨i', hi', hclear, -⟩ | ⟨hnone, -⟩
    · rw [Int.ofNat.inj (hi.symm.trans hi')]
      exact hclear
    · omega
  · have := (wordScan_full ndebug hany).2 sc h
    omega

/-- The runs taken one after the other were clear, lie apart from each other, and are set in the
end. -/
theorem RunsTaken.apart {ndebug : Bool} {last : Bitmap} {taken : List (Nat × Nat)}
    (h : RunsTaken ndebug btmp taken last) (hlen : btmp.btmpBytesLen < 2 ^ 28) :
    (∀ r ∈ taken, btmp.ClearFrom r.2 r.1) ∧
      taken.Pairwise (fun r r' => ∀ j, InRun r j → ¬ InRun r' j) ∧
      ∀ j, last.bit j = true ↔ btmp.bit j = true ∨ ∃ r ∈ taken, InRun r j := by
  induction h with
  | nil btmp => exact ⟨nofun, List.Pairwise.nil, by simp⟩
  | none _ _ _ _ _ ih => exact ih hlen
  | @found btmp btmp' last cnt i sc taken hcnt hword hscan hi hset _ ih =>
    have hclear := wordScan_clearFrom hcnt hword hlen hscan hi
    rw [Mem.bitmapSetLoop_one] at hset
    obtain rfl := Except.ok.inj hset
    obtain ⟨hrest, hapart, hlast⟩ := ih (by rwa [Bitmap.putRun_len])
    -- a run that is clear after the first one is taken meets it nowhere, and was clear before
    have hout : ∀ r ∈ taken, ∀ j, InRun r j → ¬ InRun (i, cnt) j ∧ btmp.bit j = false := by
      intro r hr j hj
      have hbit := hrest r hr j hj.1 hj.2
      rw [Bitmap.bit_putRun] at hbit
      split at hbit
      · exact Bool.noConfusion hbit
      · next hne => exact ⟨hne, hbit⟩
    refine ⟨?_, List.pairwise_cons.mpr ⟨fun r hr => ?_, hapart⟩, fun j => ?_⟩
    · intro r hr
      rcases List.mem_cons.mp hr with rfl | hr
      · exact hclear
      · exact fun j hj hj' => (hout r hr j ⟨hj, hj'⟩).2
    · exact fun j hfirst hj => (hout r hr j hj).1 hfirst
    · rw [hlast, Bitmap.bit_putRun]
      by_cases hin : i ≤ j ∧ j < i + cnt <;> simp [InRun, hin]

theorem bitmapScanTest_bitmapSet {ndebug : Bool} {i : Nat} {value : Int} {btmp' : Bitmap}
    (h : bitmapSet ndebug btmp i value = .ok btmp') (j : Nat) :
    bitmapScanTest btmp' j = if j = i then decide (value ≠ 0) else bitmapScanTest btmp j := by
  obtain ⟨_, -, h⟩ := bind_eq_ok.mp h
  have hput : btmp' = btmp.put i (decide (value ≠ 0)) := by
    rw [← Except.ok.inj h, Bitmap.put, Bitmap.putByte]
    simp only [decide_eq_true_eq]
  rw [hput, bitmapScanTest_eq, bitmapScanTest_eq, Bitmap.bit_put]

end FirstFit

/-- `bitmap_scan` is first fit, so runs that are taken one after the other are clear when they are
taken; and `bitmap_set` changes one bit. -/
theorem bitmap_scan_first_fit (ndebug : Bool) (btmp : Bitmap) (cnt : Nat) (hany : btmp.AnyClear)
    (hlen : btmp.btmpBytesLen ≤ 2 ^ 27) (hcnt : 1 ≤ cnt) (hword : cnt < 2 ^ 32) :
    (∃ sc, wordScan ndebug btmp cnt = .ok sc ∧ sc.FirstFit btmp cnt) ∧
    (∀ taken last, RunsTaken ndebug btmp taken last →
      (∀ r ∈ taken, btmp.ClearFrom r.2 r.1) ∧
        taken.Pairwise (fun r r' => ∀ j, InRun r j → ¬ InRun r' j)) ∧
    (∀ i value btmp', bitmapSet ndebug btmp i value = .ok btmp' → ∀ j,
      bitmapScanTest btmp' j = if j = i then decide (value ≠ 0) else bitmapScanTest btmp j) := by
  refine ⟨wordScan_firstFit ndebug hany hcnt hword (by omega), fun taken last h => ?_,
    fun i value btmp' h => bitmapScanTest_bitmapSet h⟩
  obtain ⟨hclear, hapart, -⟩ := h.apart (by omega)
  exact ⟨hclear, hapart⟩

theorem bitmap_scan_first_fit_twoClear :
    twoClear.AnyClear ∧ ∃ sc, wordScan false twoClear 2 = .ok sc ∧ sc.FirstFit twoClear 2 :=
  have hany : twoClear.AnyClear := ⟨6, by decide, rfl⟩
  ⟨hany, (bitmap_scan_first_fit false twoClear 2 hany (by decide) (by decide) (by decide)).1⟩

/-- `vaddr_get` sets bits of the bitmap, and hands out pages of the range, when the range has enough
free pages in a row. -/
theorem Mem.vaddrGet_inside {s : MemState} {pf : PoolFlags} {n : Nat}
    (hlen : (s.vaddr pf).vaddrBitmap.btmpBytesLen < 2 ^ 28) (hn : 1 ≤ n) (hword : n < 2 ^ 32)
    (hrun : (s.vaddr pf).vaddrBitmap.HasRun n) :
    ∃ i, i + n ≤ 8 * (s.vaddr pf).vaddrBitmap.btmpBytesLen ∧
      Mem.vaddrGet pf n s = .ok (((s.vaddr pf).vaddrStart + i * pgSize) % 2 ^ 32,
        s.setVaddrBitmap pf ((s.vaddr pf).vaddrBitmap.putRun true n i)) := by
  obtain ⟨i₀, hi₀, hclear₀⟩ := hrun
  have hany : (s.vaddr pf).vaddrBitmap.AnyClear :=
    ⟨i₀, by omega, hclear₀ i₀ (Nat.le_refl _) (by omega)⟩
  obtain ⟨sc, hscan, hfit⟩ := wordScan_firstFit s.ndebug hany hn hword hlen
  rcases hfit with ⟨i, hi, -, hleast⟩ | ⟨-, hnone⟩
  swap
  · exact absurd ⟨i₀, hi₀, hclear₀⟩ hnone
  have hle : i ≤ i₀ := by
    by_contra hgt
    exact hleast i₀ (by omega) hclear₀
  have hbitmap : bitmapScan s.ndebug (s.vaddr pf).vaddrBitmap n = .ok (i : Int) := by
    rw [bitmapScan_eq_wordScan _ _ hlen hn hword, hscan, ← hi]
    rfl
  refine ⟨i, by omega, ?_⟩
  unfold Mem.vaddrGet
  rw [Mem.read_bind, hbitmap, bind_of_ok Mem.ofPanic_ok, if_neg (by omega), Int.toNat_natCast,
    Mem.bitmapSetLoop_one, bind_of_ok Mem.ofPanic_ok, Mem.write_bind]
  rfl

end OriginOS
