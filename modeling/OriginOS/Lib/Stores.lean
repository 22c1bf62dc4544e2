import OriginOS.Lib.Bytes

/-! Stores into a byte memory that say which bytes they write. -/

namespace OriginOS.Lib

/-- A store of `size` bytes from `addr` on. Byte `k` of them is `value mem k`, where `mem` is the
memory before. -/
structure Store where
  addr : Nat
  size : Nat
  value : (Nat → UInt8) → Nat → UInt8

namespace Store

def run (s : Store) (mem : Nat → UInt8) : Nat → UInt8 := fun b =>
  if s.addr ≤ b ∧ b < s.addr + s.size then s.value mem (b - s.addr) else mem b

def runAll (stores : List Store) (mem : Nat → UInt8) : Nat → UInt8 :=
  stores.foldl (fun mem s => s.run mem) mem

/-- The bytes written lie in a buffer of this size. -/
def Within (size : Nat) (s : Store) : Prop := s.addr + s.size ≤ size

def byte (a : Nat) (f : UInt8 → UInt8) : Store := ⟨a, 1, fun mem _ => f (mem a)⟩

def set (a n : Nat) (v : UInt8) : Store := ⟨a, n, fun _ _ => v⟩

def word (a w : Nat) : Store := ⟨a, 4, fun _ k => UInt8.ofNat (w / 2 ^ (8 * k))⟩

def bytes (a : Nat) (bs : List UInt8) : Store := ⟨a, bs.length, fun _ k => bs.getD k 0⟩

variable {mem : Nat → UInt8} {a n w : Nat} {v : UInt8}

@[simp] theorem runAll_nil : runAll [] mem = mem := rfl

@[simp] theorem runAll_cons (s : Store) (stores : List Store) :
    runAll (s :: stores) mem = runAll stores (s.run mem) := rfl

theorem runAll_append (stores stores' : List Store) :
    runAll (stores ++ stores') mem = runAll stores' (runAll stores mem) :=
  List.foldl_append

@[simp] theorem run_byte (f : UInt8 → UInt8) :
    (byte a f).run mem = Function.update mem a (f (mem a)) := by
  funext b
  simp only [run, byte, Function.update_apply, show (a ≤ b ∧ b < a + 1) = (b = a) by grind]

@[simp] theorem run_set : (set a n v).run mem = fill mem a n v := rfl

@[simp] theorem run_word : (word a w).run mem = store32 mem a w := by
  funext b
  by_cases h : a ≤ b ∧ b < a + 4
  · obtain rfl | rfl | rfl | rfl : b = a ∨ b = a + 1 ∨ b = a + 2 ∨ b = a + 3 := by omega
    all_goals simp [run, word, store32]
  · refine (if_neg h).trans ?_
    rw [store32, if_neg (by omega), if_neg (by omega), if_neg (by omega), if_neg (by omega)]

@[simp] theorem run_bytes (bs : List UInt8) : (bytes a bs).run mem =
    fun b => if a ≤ b then (bs[b - a]?).getD (mem b) else mem b := by
  funext b
  simp only [run, bytes]
  by_cases hlow : a ≤ b
  · by_cases hhigh : b < a + bs.length
    · have hin : b - a < bs.length := by omega
      simp [hlow, hhigh, hin]
    · have hout : bs.length ≤ b - a := by omega
      simp [hlow, hhigh, hout]
  · simp [hlow]

end Store

end OriginOS.Lib
