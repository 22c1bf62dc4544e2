import Mathlib.Algebra.Group.Nat.Defs

/-! Programs that read and change a state and may stop before they return, and the rules for what a
program ensures. -/

namespace OriginOS.Lib

variable {σ ε α β : Type}

/-- A program over states `σ` returns an `α` or stops with an `ε`. -/
abbrev Prog (σ ε α : Type) := StateT σ (Except ε) α

/-- Started in `s`, the program returns a value and a state that satisfy `Q`, or stops with an `ε`
that satisfies `E`. -/
def Ensures (x : Prog σ ε α) (E : ε → Prop) (Q : α → σ → Prop) (s : σ) : Prop :=
  match x s with
  | .ok (a, t) => Q a t
  | .error e => E e

def Prog.read : Prog σ ε σ := fun s => .ok (s, s)

def Prog.write (t : σ) : Prog σ ε Unit := fun _ => .ok ((), t)

def Prog.stop (e : ε) : Prog σ ε α := fun _ => .error e

/-- A computation that does not depend on the state, whose failures are reported by `f`. -/
def Prog.lift {δ : Type} (f : δ → ε) (x : Except δ α) : Prog σ ε α := fun s =>
  match x with
  | .ok a => .ok (a, s)
  | .error d => .error (f d)

theorem except_ok_bind (a : α) (f : α → Except ε β) : (Except.ok a >>= f) = f a := rfl

theorem exists_of_bind_eq_ok {x : Except ε α} {f : α → Except ε β} {b : β}
    (h : (x >>= f) = .ok b) : ∃ a, x = .ok a ∧ f a = .ok b := by
  cases x with
  | error e => exact nomatch h
  | ok a => exact ⟨a, rfl, h⟩

section Rules

variable {x : Prog σ ε α} {f : α → Prog σ ε β} {E : ε → Prop} {Q : α → σ → Prop}
  {R : β → σ → Prop} {s : σ}

theorem ensures_of_ok {a : α} {t : σ} (h : x s = .ok (a, t)) (hq : Q a t) : Ensures x E Q s := by
  unfold Ensures
  rw [h]
  exact hq

theorem ensures_of_error {e : ε} (h : x s = .error e) (he : E e) : Ensures x E Q s := by
  unfold Ensures
  rw [h]
  exact he

theorem Ensures.ok (h : Ensures x E Q s) {a : α} {t : σ} (hx : x s = .ok (a, t)) : Q a t := by
  unfold Ensures at h
  rw [hx] at h
  exact h

theorem Ensures.error (h : Ensures x E Q s) {e : ε} (hx : x s = .error e) : E e := by
  unfold Ensures at h
  rw [hx] at h
  exact h

theorem Ensures.mono {Q' : α → σ → Prop} (h : Ensures x E Q s)
    (hq : ∀ a t, Q a t → Q' a t) : Ensures x E Q' s := by
  unfold Ensures at h ⊢
  split
  · next a t hx => rw [hx] at h; exact hq a t h
  · next e hx => rw [hx] at h; exact h

theorem Ensures.of_error {E' : ε → Prop} (h : Ensures x E' Q s) (he : ∀ e, x s = .error e → E e) :
    Ensures x E Q s := by
  unfold Ensures at h ⊢
  split
  · next a t hx => rw [hx] at h; exact h
  · next e hx => exact he e hx

theorem bind_apply (x : Prog σ ε α) (f : α → Prog σ ε β) (s : σ) :
    (x >>= f) s = x s >>= fun p => f p.1 p.2 := rfl

theorem ensures_bind (h : Ensures x E (fun a t => Ensures (f a) E R t) s) :
    Ensures (x >>= f) E R s := by
  unfold Ensures at h ⊢
  rw [bind_apply]
  cases hx : x s with
  | ok p => rw [hx] at h; exact h
  | error e => rw [hx] at h; exact h

theorem ensures_bind_of_ok {a : α} {t : σ} (h : x s = .ok (a, t)) (hf : Ensures (f a) E R t) :
    Ensures (x >>= f) E R s :=
  ensures_bind (ensures_of_ok h hf)

theorem Ensures.bind (h : Ensures x E Q s) (hf : ∀ a t, Q a t → Ensures (f a) E R t) :
    Ensures (x >>= f) E R s :=
  ensures_bind (h.mono hf)

theorem ensures_pure {a : α} (h : Q a s) : Ensures (pure a) E Q s := h

theorem ensures_stop {e : ε} (h : E e) : Ensures (Prog.stop e) E Q s := h

theorem bind_of_ok {a : α} {t : σ} (h : x s = .ok (a, t)) : (x >>= f) s = f a t := by
  rw [bind_apply, h]
  rfl

theorem exists_of_bind_ok {r : β × σ} (h : (x >>= f) s = .ok r) :
    ∃ a t, x s = .ok (a, t) ∧ f a t = .ok r := by
  rw [bind_apply] at h
  obtain ⟨⟨a, t⟩, hx, hf⟩ := exists_of_bind_eq_ok h
  exact ⟨a, t, hx, hf⟩

theorem bind_of_error {e : ε} (h : x s = .error e) : (x >>= f) s = .error e := by
  rw [bind_apply, h]
  rfl

/-- The program leaves the part `g` of the state as it is. -/
def Keeps {τ : Type} (g : σ → τ) (x : Prog σ ε α) : Prop :=
  ∀ s, Ensures x (fun _ => True) (fun _ t => g t = g s) s

namespace Keeps

variable {τ : Type} {g : σ → τ}

theorem ok (h : Keeps g x) {a : α} {t : σ} (hx : x s = .ok (a, t)) : g t = g s := (h s).ok hx

theorem bind (hx : Keeps g x) (hf : ∀ a, Keeps g (f a)) : Keeps g (x >>= f) := fun s =>
  (hx s).bind fun a t ht => (hf a t).mono fun _ _ hu => hu.trans ht

theorem read_bind {k : σ → Prog σ ε β} (hk : ∀ s, Keeps g (k s)) : Keeps g (Prog.read >>= k) :=
  fun s => hk s s

theorem pure (a : α) : Keeps g (Pure.pure a : Prog σ ε α) := fun _ => rfl

theorem stop (e : ε) : Keeps g (Prog.stop e : Prog σ ε α) := fun _ => trivial

theorem ite {c : Prop} [Decidable c] {y : Prog σ ε α} (hx : Keeps g x) (hy : Keeps g y) :
    Keeps g (if c then x else y) := by
  split
  · exact hx
  · exact hy

theorem lift {δ : Type} (e : δ → ε) (x : Except δ α) :
    Keeps g (Prog.lift e x : Prog σ ε α) := by
  intro s
  cases x with
  | ok a => exact rfl
  | error d => exact trivial

/-- A program that reads the state, computes from it and stores what has become of it. -/
theorem update {δ : Type} {e : δ → ε} {c : σ → Except δ α} {n : σ → α → σ} {k : α → Prog σ ε β}
    (hn : ∀ s a, g (n s a) = g s) (hk : ∀ a, Keeps g (k a)) :
    Keeps g (Prog.read >>= fun s => Prog.lift e (c s) >>= fun a =>
      Prog.write (n s a) >>= fun _ => k a) := by
  intro s
  show Ensures (Prog.lift e (c s) >>= fun a => Prog.write (n s a) >>= fun _ => k a) _ _ s
  refine Ensures.bind (Q := fun _ _ => True) ?_ fun a v _ => ?_
  · cases c s <;> exact trivial
  · exact (hk a (n s a)).mono fun _ _ hu => hu.trans (hn s a)

end Keeps

end Rules

end OriginOS.Lib
