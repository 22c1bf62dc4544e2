import Mathlib.Algebra.Group.Nat.Defs

/-! `ASSERT` and `PANIC` of `kernel/debug.h`: a kernel computation either goes on or stops in
`panic_spin` with the place and the text of the condition that failed. -/

namespace OriginOS

structure Panic where
  filename : String
  line : Nat
  func : String
  condition : String
deriving DecidableEq, Repr

/-- `PANIC(...)`: the computation never goes on. -/
def panicSpin {α : Type} (p : Panic) : Except Panic α := .error p

/-- `ASSERT(CONDITION)`, as compiled without `NDEBUG`. -/
def assert (condition : Bool) (p : Panic) : Except Panic Unit :=
  if condition then .ok () else panicSpin p

/-- `ASSERT(CONDITION)`, in a kernel that may be compiled with `NDEBUG`. -/
def assertUnless (ndebug condition : Bool) (p : Panic) : Except Panic Unit :=
  if ndebug then .ok () else assert condition p

@[simp] theorem assertUnless_false (c : Bool) (p : Panic) : assertUnless false c p = assert c p :=
  rfl

@[simp] theorem assertUnless_true (c : Bool) (p : Panic) : assertUnless true c p = .ok () := rfl

@[simp] theorem assert_true (p : Panic) : assert true p = .ok () := rfl

@[simp] theorem assert_false (p : Panic) : assert false p = .error p := rfl

theorem assert_of {c : Bool} (h : c = true) (p : Panic) : assert c p = .ok () := by
  rw [h]; rfl

theorem assertUnless_of {c : Bool} (h : c = true) (ndebug : Bool) (p : Panic) :
    assertUnless ndebug c p = .ok () := by
  rw [h]
  cases ndebug <;> rfl

@[simp] theorem ok_bind {α β : Type} (a : α) (f : α → Except Panic β) :
    (Except.ok a >>= f) = f a := rfl

@[simp] theorem error_bind {α β : Type} (p : Panic) (f : α → Except Panic β) :
    (Except.error p >>= f) = .error p := rfl

theorem bind_eq_ok {α β : Type} {x : Except Panic α} {f : α → Except Panic β} {b : β} :
    (x >>= f) = .ok b ↔ ∃ a, x = .ok a ∧ f a = .ok b := by
  cases x with
  | error p => simp
  | ok a => simp

theorem assert_eq_ok {c : Bool} {p : Panic} {u : Unit} : assert c p = .ok u ↔ c = true := by
  cases c <;> simp

end OriginOS
