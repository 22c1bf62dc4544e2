import OriginOS.Kernel.Entry

/-! `syscall_init` of `userprog/syscall-init.c`, and what `syscall_handler` makes of the number that
a program puts in `eax`. -/

namespace OriginOS.Entry

open Lib Lib.X86

inductive SyscallNr where
  | getpid | write | malloc | free
deriving DecidableEq, Repr

def SyscallNr.num : SyscallNr → UInt32
  | getpid => 0
  | write => 1
  | malloc => 2
  | free => 3

/-- `syscall_init`, with the addresses of the four functions. -/
def syscallInit (table : UInt32) (fns : SyscallNr → UInt32) (mem : Nat → UInt8) : Nat → UInt8 :=
  storeFields mem table.toNat [
    (SyscallNr.getpid.num.toNat, fns .getpid),
    (SyscallNr.write.num.toNat, fns .write),
    (SyscallNr.malloc.num.toNat, fns .malloc),
    (SyscallNr.free.num.toNat, fns .free)]

/-- The four functions are in their places in the table. -/
def Registered (table : UInt32) (fns : SyscallNr → UInt32) (mem : Nat → UInt8) : Prop :=
  ∀ nr : SyscallNr, wordAt mem (table + nr.num * 4).toNat = fns nr

/-- A system call reaches a function of the table, or, with a number that none of them has, no
function. -/
structure ReachesRegistered (k : Kernel) (fns : SyscallNr → UInt32) (g : Gate) (s : X86.Cpu) :
    Prop where
  registered : ∀ f ∈ (syscallHandler k (interrupt g s)).1, ∃ nr, f = fns nr
  others : (∀ nr : SyscallNr, s.reg .eax ≠ nr.num) → (syscallHandler k (interrupt g s)).1 = []

section Table

variable {table : UInt32} {fns : SyscallNr → UInt32} {k : Kernel} {g : Gate} {s : X86.Cpu}

theorem num_toNat (nr : SyscallNr) : nr.num.toNat < 4 := by
  cases nr <;> decide

theorem slot_toNat (hfits : table.toNat + 16 ≤ 2 ^ 32) (nr : SyscallNr) :
    (table + nr.num * 4).toNat = table.toNat + 4 * nr.num.toNat := by
  have hlt := num_toNat nr
  rw [UInt32.toNat_add, UInt32.toNat_mul, show (4 : UInt32).toNat = 4 from rfl,
    Nat.mod_eq_of_lt (by omega : nr.num.toNat * 4 < 2 ^ 32), Nat.mod_eq_of_lt (by omega)]
  omega

theorem syscallInit_registered (hfits : table.toNat + 16 ≤ 2 ^ 32) (mem : Nat → UInt8) :
    Registered table fns (syscallInit table fns mem) := by
  obtain ⟨ws, hlen, hws⟩ := exists_wordsAt mem table.toNat 4
  have hall := @WordsAt.storeFields _ _ _ [(SyscallNr.getpid.num.toNat, fns .getpid),
    (SyscallNr.write.num.toNat, fns .write), (SyscallNr.malloc.num.toNat, fns .malloc),
    (SyscallNr.free.num.toNat, fns .free)] hws (by simp [hlen, num_toNat])
  match ws, hlen with
  | [_, _, _, _], _ =>
    intro nr
    rw [slot_toNat hfits]
    refine hall.get ?_
    simp only [setFields_cons, setFields_nil]
    cases nr <;> rfl

theorem syscallTarget_eq (hroom : 92 ≤ g.stackBase s)
    (hapart : ∀ b, (k.syscallTable + s.reg .eax * 4).toNat ≤ b →
      b < (k.syscallTable + s.reg .eax * 4).toNat + 4 →
      b < g.stackBase s - 92 ∨ g.stackBase s ≤ b) :
    syscallTarget k (interrupt g s) = s.word (k.syscallTable + s.reg .eax * 4) := by
  obtain ⟨f, -, hstack⟩ := interrupt_saved g s 0x80 (by omega)
  have hlen := (saved_length f (s.cpl ≠ 0)).2
  obtain ⟨args, hargs, hstack⟩ := syscallArgs_stack (hstack.push (by omega) 0x80)
    (by rw [List.length_cons]; omega)
  obtain ⟨-, -, -, -, -, hreg, -⟩ := interrupt_stack g s (by omega)
  have heax : (syscallArgs (syscallSave (interrupt g s))).reg .eax = s.reg .eax := by
    have hne : Reg.eax ≠ .esp := by decide
    simp only [syscallArgs, syscallSave, push_reg hne, saveEnvironment_reg hne, hreg .eax hne]
  rw [syscallTarget, heax]
  refine wordAt_congr fun b hb hb' => hstack.kept b ?_
  have hesp := hstack.esp
  rw [List.length_append, List.length_cons, hargs] at hesp
  have hb := hapart b hb hb'
  omega

/-- `syscall_handler` calls whatever is at `syscall_table + 4 * eax`: the numbers of the four
functions are the only ones for which this is as it should be. -/
theorem syscall_reaches_registered_iff (k : Kernel) (fns : SyscallNr → UInt32) (g : Gate)
    (s : X86.Cpu) (hfits : k.syscallTable.toNat + 16 ≤ 2 ^ 32)
    (hregistered : Registered k.syscallTable fns s.mem)
    (hroom : 92 ≤ g.stackBase s)
    (hapart : g.stackBase s ≤ k.syscallTable.toNat ∨
      k.syscallTable.toNat + 16 ≤ g.stackBase s - 92) :
    ReachesRegistered k fns g s ↔ ∃ nr : SyscallNr, s.reg .eax = nr.num := by
  constructor
  · intro h
    by_contra hnone
    exact List.cons_ne_nil _ _ (h.others fun nr hnr => hnone ⟨nr, hnr⟩)
  · rintro ⟨nr, hnr⟩
    refine ⟨fun f hf => ⟨nr, ?_⟩, fun hnone => absurd hnr (hnone nr)⟩
    have hslot := slot_toNat hfits nr
    have hlt := num_toNat nr
    rw [List.mem_singleton.mp hf, syscallTarget_eq hroom, hnr]
    · exact hregistered nr
    · rw [hnr, hslot]
      intro b hb hb'
      omega

end Table

def sampleFns : SyscallNr → UInt32
  | .getpid => 0xc0002000
  | .write => 0xc0002100
  | .malloc => 0xc0002200
  | .free => 0xc0002300

/-- A user program with the number `nr` in `eax`, after `syscall_init`. -/
def callingCpu (nr : UInt32) : X86.Cpu :=
  { (sampleCpu selectorUCode selectorUData).set .eax nr with
    mem := syscallInit 0x20000 sampleFns fun _ => 0 }

theorem callingCpu_registered (nr : UInt32) :
    Registered idleKernel.syscallTable sampleFns (callingCpu nr).mem :=
  syscallInit_registered (by decide) _

theorem callingCpu_base (nr : UInt32) :
    (gate 0xc0001600 0x9f000).stackBase (callingCpu nr) = 0x9f000 := by
  have hcpl : (callingCpu nr).cpl ≠ 0 := (by decide : selectorUCode &&& 3 ≠ 0)
  rw [Gate.stackBase, if_pos hcpl]
  decide

/-- The number 1 reaches `sys_write`. -/
theorem syscall_reaches_write :
    Registered idleKernel.syscallTable sampleFns (callingCpu 1).mem ∧
    ReachesRegistered idleKernel sampleFns (gate 0xc0001600 0x9f000) (callingCpu 1) :=
  ⟨callingCpu_registered 1, (syscall_reaches_registered_iff idleKernel sampleFns
    (gate 0xc0001600 0x9f000) (callingCpu 1) (by decide) (callingCpu_registered 1)
    (by rw [callingCpu_base]; decide) (by rw [callingCpu_base]; decide)).mpr ⟨.write, rfl⟩⟩

/-- The number 4 is not one of a system call: the word behind the four functions is called, which is
0 here. -/
theorem syscall_reaches_unregistered :
    Registered idleKernel.syscallTable sampleFns (callingCpu 4).mem ∧
    (syscallHandler idleKernel (interrupt (gate 0xc0001600 0x9f000) (callingCpu 4))).1 = [0] ∧
    ¬ ReachesRegistered idleKernel sampleFns (gate 0xc0001600 0x9f000) (callingCpu 4) := by
  have hcall : (syscallHandler idleKernel
      (interrupt (gate 0xc0001600 0x9f000) (callingCpu 4))).1 = [0] := by
    refine congrArg (fun f => [f]) ((syscallTarget_eq ?_ ?_).trans ?_)
    · rw [callingCpu_base]
      decide
    · have hat : (idleKernel.syscallTable + (callingCpu 4).reg .eax * 4).toNat = 0x20010 := by
        decide
      rw [callingCpu_base, hat]
      intro b hb hb'
      omega
    · decide +kernel
  refine ⟨callingCpu_registered 4, hcall, fun h => ?_⟩
  obtain ⟨nr, hnr⟩ := h.registered 0 (hcall ▸ List.mem_singleton_self 0)
  cases nr <;> exact absurd hnr (by decide)

end OriginOS.Entry
