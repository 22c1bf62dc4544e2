import Mathlib.Data.List.Basic

/-! Transition systems whose actions are functions that may fail: their runs, the states that a run
visits, and the rules that turn a fact about one step into a fact about every run. -/

namespace OriginOS.Lib

/-- A system over states `σ`: the environment takes action `a : α` in a state that `guard` admits,
and `exec a` either yields the next state or fails with an `ε`. -/
structure System (σ α ε : Type) where
  init : σ → Prop
  guard : σ → α → Prop
  exec : α → σ → Except ε σ

namespace System

variable {σ α ε : Type} (S : System σ α ε)

def Step (s : σ) (a : α) (t : σ) : Prop := S.guard s a ∧ S.exec a s = .ok t

/-- A run to `s`: its trace lists the states left and the actions taken in them, latest first. -/
inductive Run : List (σ × α) → σ → Prop
  | start {s : σ} : S.init s → Run [] s
  | next {tr : List (σ × α)} {s t : σ} {a : α} : Run tr s → S.Step s a t → Run ((s, a) :: tr) t

/-- The states of a run with trace `tr` that ends in `s`, latest first. -/
def states (tr : List (σ × α)) (s : σ) : List σ := s :: tr.map Prod.fst

def Reachable (s : σ) : Prop := ∃ tr, S.Run tr s

variable {S}

theorem Step.eq_of_ok {s t u : σ} {a : α} (h : S.Step s a t) (hu : S.exec a s = .ok u) : t = u :=
  Except.ok.inj (h.2.symm.trans hu)

theorem Reachable.init {s : σ} (h : S.init s) : S.Reachable s := ⟨[], .start h⟩

theorem Reachable.next {s t : σ} {a : α} (h : S.Reachable s) (step : S.Step s a t) :
    S.Reachable t := by
  obtain ⟨tr, run⟩ := h
  exact ⟨_, run.next step⟩

/-- Every state of a run is itself reached by a run whose steps are steps of the run. -/
theorem Run.of_mem_states {tr : List (σ × α)} {s u : σ} (run : S.Run tr s)
    (mem : u ∈ states tr s) : ∃ tr', S.Run tr' u ∧ ∀ p ∈ tr', p ∈ tr := by
  induction run with
  | start hi =>
    obtain rfl : u = _ := by simpa [states] using mem
    exact ⟨[], .start hi, by simp⟩
  | @next tr s t a run step ih =>
    rcases List.mem_cons.mp mem with rfl | old
    · exact ⟨_, run.next step, fun _ h => h⟩
    · obtain ⟨tr', run', sub⟩ := ih (by simpa [states] using old)
      exact ⟨tr', run', fun p hp => List.mem_cons_of_mem _ (sub p hp)⟩

theorem Run.step_of_mem {tr : List (σ × α)} {s : σ} (run : S.Run tr s) {p : σ × α} (hp : p ∈ tr) :
    ∃ t ∈ states tr s, S.Step p.1 p.2 t ∧ S.Reachable p.1 := by
  induction run with
  | start hi => exact absurd hp List.not_mem_nil
  | @next tr s t a run step ih =>
    rcases List.mem_cons.mp hp with rfl | old
    · exact ⟨t, List.mem_cons_self, step, tr, run⟩
    · obtain ⟨u, hu, hstep⟩ := ih old
      exact ⟨u, List.mem_cons_of_mem _ (by simpa [states] using hu), hstep⟩

theorem Run.invariant_of {tr : List (σ × α)} {s : σ} {C : σ → α → Prop} {I : σ → Prop}
    (init : ∀ s, S.init s → I s)
    (step : ∀ s a t, I s → C s a → S.Step s a t → I t)
    (run : S.Run tr s) (cond : ∀ p ∈ tr, C p.1 p.2) : I s := by
  induction run with
  | start hi => exact init _ hi
  | next run hs ih =>
    exact step _ _ _ (ih fun p hp => cond p (List.mem_cons_of_mem _ hp))
      (cond (_, _) List.mem_cons_self) hs

theorem Reachable.invariant {s : σ} {I : σ → Prop} (init : ∀ s, S.init s → I s)
    (step : ∀ s a t, I s → S.Step s a t → I t) (h : S.Reachable s) : I s := by
  obtain ⟨tr, run⟩ := h
  exact run.invariant_of (C := fun _ _ => True) init (fun s a t hi _ => step s a t hi)
    fun _ _ => trivial

variable (S) in
/-- The actions lead from one state to another through states in `P`, both ends included. -/
inductive Path (P : σ → Prop) : σ → List α → σ → Prop
  | nil {s : σ} : P s → Path P s [] s
  | cons {s t u : σ} {a : α} {acts : List α} :
    P s → S.Step s a t → Path P t acts u → Path P s (a :: acts) u

theorem Path.head {P : σ → Prop} {s u : σ} {acts : List α} (path : S.Path P s acts u) : P s := by
  cases path with
  | nil h => exact h
  | cons h _ _ => exact h

/-- A measure that no step increases, and that the actions in `p` decrease, bounds how often they
are taken. -/
theorem Path.countP_le {P I : σ → Prop} {μ : σ → Nat} {p : α → Bool}
    (step : ∀ s a t, I s → P s → P t → S.Step s a t → I t ∧ μ t + (p a).toNat ≤ μ s)
    {s u : σ} {acts : List α} (path : S.Path P s acts u) (hs : I s) :
    μ u + acts.countP p ≤ μ s := by
  induction path with
  | nil _ => exact Nat.le_refl _
  | @cons s t u a acts hP hstep path ih =>
    obtain ⟨ht, hle⟩ := step s a t hs hP path.head hstep
    have hrest := ih ht
    rw [List.countP_cons]
    cases hp : p a with
    | true =>
      rw [hp] at hle
      simp only [Bool.toNat_true, if_true] at hle ⊢
      omega
    | false =>
      rw [hp] at hle
      simp only [Bool.toNat_false, Bool.false_eq_true, if_false] at hle ⊢
      omega

variable (S) in
/-- Replay a list of actions: the state after them, if each is admitted and succeeds. -/
def replay [∀ s a, Decidable (S.guard s a)] : List α → σ → Option σ
  | [], s => some s
  | a :: acts, s =>
    if S.guard s a then
      match S.exec a s with
      | .ok t => replay acts t
      | .error _ => none
    else none

theorem Reachable.replay [∀ s a, Decidable (S.guard s a)] {s t : σ} (h : S.Reachable s)
    (acts : List α) (heq : S.replay acts s = some t) : S.Reachable t := by
  induction acts generalizing s with
  | nil => exact (Option.some.inj heq) ▸ h
  | cons a acts ih =>
    rw [System.replay] at heq
    split at heq
    · next hg =>
      split at heq
      · next u hu => exact ih (h.next ⟨hg, hu⟩) heq
      · cases heq
    · cases heq

/-- The state that a list of actions leads to, when all of them are admitted and succeed. -/
theorem Reachable.replay_getD [∀ s a, Decidable (S.guard s a)] {s : σ} (h : S.Reachable s)
    (acts : List α) (hs : (S.replay acts s).isSome = true) :
    S.Reachable ((S.replay acts s).getD s) := by
  obtain ⟨t, ht⟩ := Option.isSome_iff_exists.mp hs
  rw [ht]
  exact h.replay acts ht

/-- The system with only those steps that satisfy `C`. -/
def restrict (S : System σ α ε) (C : σ → α → Prop) : System σ α ε :=
  { S with guard := fun s a => S.guard s a ∧ C s a }

instance (S : System σ α ε) (C : σ → α → Prop) [∀ s a, Decidable (S.guard s a)]
    [∀ s a, Decidable (C s a)] (s : σ) (a : α) : Decidable ((S.restrict C).guard s a) :=
  inferInstanceAs (Decidable (_ ∧ _))

theorem Run.of_restrict {C : σ → α → Prop} {tr : List (σ × α)} {s : σ}
    (run : (S.restrict C).Run tr s) : S.Run tr s ∧ ∀ p ∈ tr, C p.1 p.2 := by
  induction run with
  | start hi => exact ⟨.start hi, by simp⟩
  | next _ step ih =>
    refine ⟨ih.1.next ⟨step.1.1, step.2⟩, fun p hp => ?_⟩
    rcases List.mem_cons.mp hp with rfl | hp
    · exact step.1.2
    · exact ih.2 p hp

end System

end OriginOS.Lib
