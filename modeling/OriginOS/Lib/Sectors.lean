import Mathlib.Data.Vector.Defs
import OriginOS.Lib.Bytes

/-! Disks of 512-byte sectors as byte memories, buffers that are read from them and written to them,
and records of 32-bit words in such memories. -/

namespace OriginOS.Lib

/-- The disk with the first `cnt` sectors of `buf` in the sectors from `lba` on. -/
def writeSectors (disk buf : Nat → UInt8) (lba cnt : Nat) : Nat → UInt8 := fun a =>
  if 512 * lba ≤ a ∧ a < 512 * (lba + cnt) then buf (a - 512 * lba) else disk a

/-- The buffer after `cnt` sectors from `lba` on have been read to its beginning. -/
def readSectors (disk buf : Nat → UInt8) (lba cnt : Nat) : Nat → UInt8 := fun a =>
  if a < 512 * cnt then disk (512 * lba + a) else buf a

section Transfer

variable {disk buf : Nat → UInt8} {lba cnt a : Nat}

theorem writeSectors_apply (h : a < 512 * cnt) :
    writeSectors disk buf lba cnt (512 * lba + a) = buf a := by
  unfold writeSectors
  rw [if_pos (by omega), Nat.add_sub_cancel_left]

theorem writeSectors_of_not (h : a < 512 * lba ∨ 512 * (lba + cnt) ≤ a) :
    writeSectors disk buf lba cnt a = disk a := if_neg (by omega)

theorem readSectors_apply (h : a < 512 * cnt) :
    readSectors disk buf lba cnt a = disk (512 * lba + a) := if_pos h

theorem readSectors_of_not (h : 512 * cnt ≤ a) : readSectors disk buf lba cnt a = buf a :=
  if_neg (by omega)

theorem writeSectors_congr {buf' : Nat → UInt8} (h : ∀ k, k < 512 * cnt → buf' k = buf k) :
    writeSectors disk buf' lba cnt = writeSectors disk buf lba cnt := by
  funext a
  unfold writeSectors
  split
  · exact h _ (by omega)
  · rfl

@[simp] theorem writeSectors_zero : writeSectors disk buf lba 0 = disk := by
  funext a
  exact writeSectors_of_not (by omega)

@[simp] theorem readSectors_zero : readSectors disk buf lba 0 = buf := by
  funext a
  exact readSectors_of_not (by omega)

theorem writeSectors_add (m n : Nat) :
    writeSectors (writeSectors disk buf lba m) (fun k => buf (512 * m + k)) (lba + m) n =
      writeSectors disk buf lba (m + n) := by
  funext a
  simp only [writeSectors]
  split
  · next h =>
    rw [if_pos (by omega)]
    congr 1
    omega
  · next h =>
    split
    · rw [if_pos (by omega)]
    · rw [if_neg (by omega)]

end Transfer

/-- Two disks have the same bytes in sector `x`. -/
def SameSector (disk disk' : Nat → UInt8) (x : Nat) : Prop :=
  ∀ k, k < 512 → disk' (512 * x + k) = disk (512 * x + k)

theorem SameSector.trans {d₁ d₂ d₃ : Nat → UInt8} {x : Nat} (h : SameSector d₁ d₂ x)
    (h' : SameSector d₂ d₃ x) : SameSector d₁ d₃ x := fun k hk => (h' k hk).trans (h k hk)

theorem sameSector_writeSectors {disk buf : Nat → UInt8} {lba cnt x : Nat}
    (h : x < lba ∨ lba + cnt ≤ x) : SameSector disk (writeSectors disk buf lba cnt) x :=
  fun k hk => writeSectors_of_not (by omega)

/-! ### Records of words -/

def wordAt (mem : Nat → UInt8) (a : Nat) : UInt32 := UInt32.ofNat (load32 mem a)

def storeWords (mem : Nat → UInt8) (a : Nat) : List UInt32 → Nat → UInt8
  | [] => mem
  | w :: ws => storeWords (store32 mem a w.toNat) (a + 4) ws

variable {mem mem' : Nat → UInt8} {a b : Nat} {ws : List UInt32}

theorem wordAt_congr (h : ∀ b, a ≤ b → b < a + 4 → mem' b = mem b) :
    wordAt mem' a = wordAt mem a := by
  unfold wordAt
  rw [load32_congr h]

theorem wordAt_store32_self (w : UInt32) : wordAt (store32 mem a w.toNat) a = w := by
  unfold wordAt
  rw [load32_store32_self w.toNat_lt, UInt32.ofNat_toNat]

theorem wordAt_store32_of_ne {w : Nat} (ha : a % 4 = 0) (hb : b % 4 = 0) (h : b ≠ a) :
    wordAt (store32 mem a w) b = wordAt mem b := by
  unfold wordAt
  rw [load32_store32_of_ne ha hb h]

theorem wordAt_store32_of_disjoint {w : Nat} (h : b + 4 ≤ a ∨ a + 4 ≤ b) :
    wordAt (store32 mem a w) b = wordAt mem b := by
  unfold wordAt
  rw [load32_store32_of_disjoint h]

theorem storeWords_apply_of_not (h : b < a ∨ a + 4 * ws.length ≤ b) :
    storeWords mem a ws b = mem b := by
  induction ws generalizing mem a with
  | nil => rfl
  | cons w ws ih =>
    rw [List.length_cons] at h
    rw [storeWords, ih (by omega), store32_apply_of_not (by omega)]

theorem wordAt_storeWords {i : Nat} {w : UInt32} (hi : ws[i]? = some w) :
    wordAt (storeWords mem a ws) (a + 4 * i) = w := by
  induction ws generalizing mem a i with
  | nil => exact nomatch hi
  | cons v ws ih =>
    rw [storeWords]
    cases i with
    | zero =>
      obtain rfl : v = w := Option.some.inj hi
      rw [wordAt_congr fun b hb hb' => storeWords_apply_of_not (by omega)]
      exact wordAt_store32_self v
    | succ i =>
      have hword := @ih (store32 mem a v.toNat) (a + 4) i hi
      rwa [show a + 4 + 4 * i = a + 4 * (i + 1) by omega] at hword

theorem wordAt_congr_shift {a' : Nat} (h : ∀ k, k < 4 → mem' (a' + k) = mem (a + k)) :
    wordAt mem' a' = wordAt mem a := by
  have h₀ := h 0 (by omega)
  simp only [Nat.add_zero] at h₀
  simp only [wordAt, load32, h₀, h 1 (by omega), h 2 (by omega), h 3 (by omega)]

theorem wordAt_congr_record {a' n : Nat} (h : ∀ k, k < n → mem' (a' + k) = mem (a + k)) (c : Nat)
    (hc : c + 4 ≤ n) : wordAt mem' (a' + c) = wordAt mem (a + c) := by
  refine wordAt_congr_shift fun k hk => ?_
  rw [Nat.add_assoc, Nat.add_assoc]
  exact h (c + k) (by omega)

theorem storeWords_eq_self (h : ∀ i w, ws[i]? = some w → wordAt mem (a + 4 * i) = w) :
    storeWords mem a ws = mem := by
  induction ws generalizing a with
  | nil => rfl
  | cons w ws ih =>
    have hw : w.toNat = load32 mem a := by
      rw [← h 0 w rfl]
      exact UInt32.toNat_ofNat_of_lt' (load32_lt mem a)
    rw [storeWords, hw, store32_load32]
    refine ih fun i v hv => ?_
    rw [Nat.add_assoc, Nat.add_comm 4]
    exact h (i + 1) v hv

theorem store32_shift {c w : Nat} (h : mem b = mem' (c + b)) :
    store32 mem a w b = store32 mem' (c + a) w (c + b) := by
  unfold store32
  simp only [Nat.add_assoc, Nat.add_left_cancel_iff, h]

theorem storeWords_shift {c : Nat} (h : mem b = mem' (c + b)) :
    storeWords mem a ws b = storeWords mem' (c + a) ws (c + b) := by
  induction ws generalizing mem mem' a with
  | nil => exact h
  | cons w ws ih =>
    rw [storeWords, storeWords, Nat.add_assoc]
    exact ih (store32_shift h)

/-- To read sectors, change a record in them and write them back changes the record on the disk. -/
theorem writeSectors_storeWords {disk buf : Nat → UInt8} {lba cnt : Nat}
    (h : a + 4 * ws.length ≤ 512 * cnt) :
    writeSectors disk (storeWords (readSectors disk buf lba cnt) a ws) lba cnt =
      storeWords disk (512 * lba + a) ws := by
  funext b
  unfold writeSectors
  split
  · next hb =>
    have hread := @readSectors_apply disk buf lba cnt (b - 512 * lba) (by omega)
    have hshift := @storeWords_shift _ disk a _ ws _ hread
    rwa [show 512 * lba + (b - 512 * lba) = b by omega] at hshift
  · rw [storeWords_apply_of_not (by omega)]

end OriginOS.Lib
