import OriginOS.Kernel.Entry
import OriginOS.Thread.Switch

/-! A program that is interrupted does not notice how long its interrupt lasts: the handler may call
`switch_to`, and other threads may run for any time before it comes back. -/

namespace OriginOS.Preempt

open Lib Lib.X86 Entry
open ContextSwitch (SwitchWorld SwitchAct SwitchInv switchSystem OwnStack)

/-- What the handler of thread `t` leaves alone while the thread runs: the stack from `frame` on. -/
def Respects (t : UInt32) (frame : Nat) (w : SwitchWorld) : SwitchAct → Prop
  | .compute cpu => ∀ a, frame ≤ a → a < t.toNat + 4096 → cpu.mem a = w.cpu.mem a
  | .create _ _ _ => True
  | .switchTo _ _ => w.cpu.esp.toNat ≤ frame

/-- The threads, while thread `t` is in a handler with the frame at `frame`. -/
def handlerSystem (kernelThread t : UInt32) (frame : Nat) : System SwitchWorld SwitchAct Empty where
  init := (switchSystem kernelThread).init
  guard w act := w.Admits act ∧ (w.cur = t → Respects t frame w act)
  exec := (switchSystem kernelThread).exec

section Frame

variable {kernelThread t : UInt32} {frame : Nat} {tr : List (SwitchWorld × SwitchAct)}
  {w w' : SwitchWorld} {act : SwitchAct} {acts : List SwitchAct}

/-- No step changes the frame: the thread's own do not, and those of the others are elsewhere. -/
theorem frame_step (h : SwitchInv kernelThread tr w) (ht : t ∈ w.threads)
    (hframe : t.toNat + 272 ≤ frame) (hadm : w.Admits act)
    (hown : w.cur = t → Respects t frame w act) :
    t ∈ (w.exec kernelThread act).threads ∧ ∀ a, frame ≤ a → a < t.toNat + 4096 →
      (w.exec kernelThread act).cpu.mem a = w.cpu.mem a := by
  have hstack : ∀ a, frame ≤ a → a < t.toNat + 4096 → OwnStack t a :=
    fun a ha ha' => .inr ⟨Nat.le_trans hframe ha, ha'⟩
  cases act with
  | compute cpu =>
    refine ⟨ht, fun a ha ha' => ?_⟩
    by_cases hcur : w.cur = t
    · exact hown hcur a ha ha'
    · exact hadm t ht (Ne.symm hcur) a (hstack a ha ha')
  | create pthread function funcArg =>
    obtain ⟨hnew, hpage⟩ := hadm
    have hne : t ≠ pthread := by
      rintro rfl
      exact hnew ht
    exact ⟨List.mem_cons_of_mem _ ht, fun a ha ha' => ContextSwitch.createdMem_apply_of_not
      (ContextSwitch.page_small hpage) ((hstack a ha ha').off_page (h.pages t ht) hpage hne)⟩
  | switchTo next ret =>
    obtain ⟨-, hcall⟩ := hadm
    refine ⟨ht, fun a ha ha' => ?_⟩
    rw [SwitchWorld.exec, h.mem_switchTo hcall]
    show ContextSwitch.savedMem w.cpu ret w.cur a = w.cpu.mem a
    by_cases hcur : w.cur = t
    · have hesp : w.cpu.esp.toNat ≤ frame := hown hcur
      have hlow := hcall.low
      rw [hcur] at hlow ⊢
      rw [ContextSwitch.savedMem, store32_apply_of_not (by omega),
        ContextSwitch.pushedMem_apply_of_not (by omega) (by omega)]
    · exact ContextSwitch.savedMem_apply_of_not hcall
        ((hstack a ha ha').off_page (h.pages t ht) (h.pages _ h.running) (Ne.symm hcur))

theorem frame_path (h : SwitchInv kernelThread tr w) (ht : t ∈ w.threads)
    (hframe : t.toNat + 272 ≤ frame) {P : SwitchWorld → Prop}
    (path : (handlerSystem kernelThread t frame).Path P w acts w') :
    ∀ a, frame ≤ a → a < t.toNat + 4096 → w'.cpu.mem a = w.cpu.mem a := by
  induction path generalizing tr with
  | nil _ => exact fun _ _ _ => rfl
  | @cons w u w' act acts _ step _ ih =>
    obtain ⟨⟨hadm, hown⟩, hexec⟩ := step
    obtain rfl : w.exec kernelThread act = u := Except.ok.inj hexec
    obtain ⟨ht', hkept⟩ := frame_step h ht hframe hadm hown
    exact fun a ha ha' => (ih (h.step hadm) ht' a ha ha').trans (hkept a ha ha')

end Frame

/-- The state in which a stub calls the handler, for a user program that runs as thread `t`. -/
def entered (t function vec : UInt32) (s : Cpu) : Cpu :=
  vectorSave vec (interrupt (gate function (t + 4096)) s)

/-- Where the words behind `vec_no` begin. -/
def savedAt (t function vec : UInt32) (s : Cpu) : Nat :=
  ((entered t function vec s).reg .esp).toNat + 4

theorem length_saved {s : Cpu} (f : IntrStack) (huser : s.cpl ≠ 0) :
    (f.saved (s.cpl ≠ 0)).length = 18 := by
  rw [decide_eq_true huser]
  rfl

/-- The stack of the handler begins at the end of the page of the thread. -/
theorem savedAt_add {t function vec : UInt32} {s : Cpu} {k : Kernel} (hpage : t.toNat % 4096 = 0)
    (hvec : vec ∉ errorCodeVectors) (huser : s.cpl ≠ 0)
    (h : Interruptible k (gate function (t + 4096)) s) :
    savedAt t function vec s + 72 = t.toNat + 4096 := by
  obtain ⟨f, -, hstack⟩ := vectorSave_stack h hvec
  have hat := hstack.esp
  have hroom := h.room
  have hsmall := ContextSwitch.page_small hpage
  rw [IntrStack.words, List.length_cons, length_saved f huser] at hat
  rw [Gate.stackBase, if_pos huser] at hroom hat
  change 92 ≤ (t + 4096).toNat at hroom
  change _ = (t + 4096).toNat at hat
  rw [UInt32.toNat_add] at hroom hat
  unfold savedAt entered
  simp at hroom hat
  omega

/-- A thread at a call of `switch_to`, with the two arguments on its stack. -/
def calling (mem : Nat → UInt8) (esp cur next : UInt32) : ContextSwitch.Cpu :=
  ⟨0, 0, 0, 0, 0, esp, 0, store32 (store32 mem esp.toNat cur.toNat) (esp.toNat + 4) next.toNat⟩

theorem calling_frame {mem : Nat → UInt8} {esp cur next : UInt32}
    (hlow : cur.toNat + 292 ≤ esp.toNat) (hhigh : esp.toNat + 8 ≤ cur.toNat + 4096) :
    ContextSwitch.CallFrame (calling mem esp cur next) cur next := by
  refine ⟨hlow, hhigh, ?_, wordAt_store32_self next⟩
  show wordAt (store32 (store32 mem esp.toNat cur.toNat) _ _) esp.toNat = cur
  rw [wordAt_store32_of_disjoint (by omega), wordAt_store32_self]

theorem calling_apply {mem : Nat → UInt8} {esp cur next : UInt32} {a : Nat}
    (ha : a < esp.toNat ∨ esp.toNat + 8 ≤ a) : (calling mem esp cur next).mem a = mem a :=
  (store32_apply_of_not (by omega)).trans (store32_apply_of_not (by omega))

/-- A handler of `t` may switch to another thread `u`, and `u` back to it. -/
theorem exists_path (kernelThread ret t u esp esp' : UInt32) (frame : Nat)
    (cpu : ContextSwitch.Cpu) (ht : t.toNat % 4096 = 0) (hu : u.toNat % 4096 = 0) (hne : u ≠ t)
    (hlow : t.toNat + 292 ≤ esp.toNat) (hhigh : esp.toNat + 8 ≤ frame)
    (hframe : frame ≤ t.toNat + 4096) (hlow' : u.toNat + 292 ≤ esp'.toNat)
    (hhigh' : esp'.toNat + 8 ≤ u.toNat + 4096) :
    ∃ there back w', (handlerSystem kernelThread t frame).Path (fun _ => True) ⟨cpu, t, [u, t]⟩
      [.compute there, .switchTo u ret, .compute back, .switchTo t ret] w' := by
  have hother : ∀ v ∈ [u, t], v ≠ t → v = u := fun v hv hvt =>
    (List.mem_cons.mp hv).resolve_right fun h => hvt (List.mem_singleton.mp h)
  have hself : ∀ v ∈ [u, t], v ≠ u → v = t := fun v hv hvu =>
    List.mem_singleton.mp ((List.mem_cons.mp hv).resolve_left hvu)
  let there := calling cpu.mem esp t u
  let out : SwitchWorld := SwitchWorld.exec kernelThread ⟨there, t, [u, t]⟩ (.switchTo u ret)
  let back := calling out.cpu.mem esp' u t
  refine ⟨there, back, _, .cons trivial ⟨⟨?_, fun _ a ha _ => calling_apply (by omega)⟩, rfl⟩
    (.cons trivial ⟨⟨⟨List.mem_cons_self, calling_frame hlow (by omega)⟩,
      fun _ => Nat.le_trans (Nat.le_add_right _ 8) hhigh⟩, rfl⟩
    (.cons trivial ⟨⟨?_, fun heq => absurd heq hne⟩, rfl⟩
    (.cons trivial ⟨⟨⟨List.mem_cons_of_mem _ List.mem_cons_self, calling_frame hlow' hhigh'⟩,
      fun heq => absurd heq hne⟩, rfl⟩ (.nil trivial))))⟩
  · intro v hv hvt a ha
    obtain rfl := hother v hv hvt
    have hoff := ha.off_page hu ht hne
    exact calling_apply (by omega)
  · intro v hv hvu a ha
    obtain rfl := hself v hv hvu
    have hoff := ha.off_page ht hu (Ne.symm hne)
    exact calling_apply (by omega)

/-- A user program beside a thread at `0xc0101000` that has not run yet. -/
def userBeside : Cpu :=
  { sampleCpu selectorUCode selectorUData with
    mem := ContextSwitch.createdMem 0xc0001500 (fun _ => 0) 0xc0101000 0xc0002000 7 }

theorem userBeside_interruptible :
    Interruptible idleKernel (gate 0xc0001600 (0xc009e000 + 4096)) userBeside := by
  refine ⟨by decide, fun _ r hcs _ => .inl ?_⟩
  cases r with
  | cs => exact absurd rfl hcs
  | _ => rfl

end OriginOS.Preempt
