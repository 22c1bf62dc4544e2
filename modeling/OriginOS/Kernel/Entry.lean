import Mathlib.Data.List.Basic
import OriginOS.Lib.X86Stack

/-! The ways into the kernel and out of it: the stubs of `kernel/kernel.S` for interrupts and for
`int 0x80`, `intr_exit`, and the frame that `start_process` of `userprog/process.c` makes. -/

namespace OriginOS.Entry

open Lib Lib.X86

def selectorKCode : UInt16 := 0x08

def selectorKStack : UInt16 := 0x10

def selectorUCode : UInt16 := 0x2b

def selectorUData : UInt16 := 0x33

/-- A gate of `make_idt_desc`, with the stack in the task state segment. -/
def gate (function esp0 : UInt32) : Gate := ⟨selectorKCode, function, selectorKStack, esp0⟩

/-- What the stubs refer to: the C functions by their addresses, each from its first instruction to
its `ret`, the two tables of such addresses, the address behind the call, and the selectors that a
user program can use. -/
structure Kernel where
  code : UInt32 → Cpu → Cpu
  idtTable : UInt32
  syscallTable : UInt32
  ret : UInt32
  usable : UInt16 → Bool

/-- The pushes that the stubs have in common. -/
def saveEnvironment (s : Cpu) : Cpu :=
  let s := s.pushSel (s.seg .ds)
  let s := s.pushSel (s.seg .es)
  let s := s.pushSel (s.seg .fs)
  let s := s.pushSel (s.seg .gs)
  s.pushad

def intrExit (usable : UInt16 → Bool) (s : Cpu) : Cpu :=
  let s := s.drop 4
  let s := s.popad
  let s := s.popSeg .gs
  let s := s.popSeg .fs
  let s := s.popSeg .es
  let s := s.popSeg .ds
  let s := s.drop 4
  iretd usable s

/-- The vectors for which `intr_entry_table` has `ERROR_CODE`: the processor pushes the word. -/
def errorCodeVectors : List UInt32 :=
  [0x08, 0x0a, 0x0b, 0x0d, 0x0e, 0x11, 0x18, 0x1a, 0x1b, 0x1d, 0x1e]

/-- The macro `VECTOR` up to the call. The two `out`s of `al` change no register. -/
def vectorSave (n : UInt32) (s : Cpu) : Cpu :=
  let s := if n ∈ errorCodeVectors then s else s.push 0
  let s := saveEnvironment s
  let s := s.set .eax (s.reg .eax &&& 0xffffff00 ||| 0x20)
  s.push n

/-- `VECTOR` up to the return of the handler. -/
def vectorReturn (k : Kernel) (n : UInt32) (s : Cpu) : Cpu :=
  let s := vectorSave n s
  k.code (s.word (k.idtTable + n * 4)) (s.push k.ret)

def vector (k : Kernel) (n : UInt32) (s : Cpu) : Cpu := intrExit k.usable (vectorReturn k n s)

def syscallSave (s : Cpu) : Cpu := (saveEnvironment (s.push 0)).push 0x80

def syscallArgs (s : Cpu) : Cpu :=
  let s := s.push (s.reg .edx)
  let s := s.push (s.reg .ecx)
  s.push (s.reg .ebx)

/-- The address that `syscall_handler` calls. -/
def syscallTarget (k : Kernel) (s : Cpu) : UInt32 :=
  let s := syscallArgs (syscallSave s)
  s.word (k.syscallTable + s.reg .eax * 4)

/-- `syscall_handler` up to the return of the function. -/
def syscallReturn (k : Kernel) (s : Cpu) : Cpu :=
  k.code (syscallTarget k s) ((syscallArgs (syscallSave s)).push k.ret)

/-- `syscall_handler`, with the addresses that it calls. -/
def syscallHandler (k : Kernel) (s : Cpu) : List UInt32 × Cpu :=
  let t := syscallReturn k s
  let t := t.drop 12
  let t := t.setWord (t.reg .esp + 8 * 4) (t.reg .eax)
  ([syscallTarget k s], intrExit k.usable t)

structure IntrStack where
  vecNo : UInt32
  edi : UInt32
  esi : UInt32
  ebp : UInt32
  espDummy : UInt32
  ebx : UInt32
  edx : UInt32
  ecx : UInt32
  eax : UInt32
  gs : UInt32
  fs : UInt32
  es : UInt32
  ds : UInt32
  errCode : UInt32
  eip : UInt32
  cs : UInt32
  eflags : UInt32
  esp : UInt32
  ss : UInt32

namespace IntrStack

/-- The fields behind `vec_no` in memory; the last two only if the privilege level changes. -/
def saved (f : IntrStack) (outer : Bool) : List UInt32 :=
  [f.edi, f.esi, f.ebp, f.espDummy, f.ebx, f.edx, f.ecx, f.eax, f.gs, f.fs, f.es, f.ds, f.errCode,
    f.eip, f.cs, f.eflags] ++ if outer then [f.esp, f.ss] else []

def words (f : IntrStack) (outer : Bool) : List UInt32 := f.vecNo :: f.saved outer

/-- The fields are those of the state that was interrupted. The selectors are in the low halves. -/
structure Saves (f : IntrStack) (vec : UInt32) (s : Cpu) : Prop where
  vecNo : f.vecNo = vec
  edi : f.edi = s.reg .edi
  esi : f.esi = s.reg .esi
  ebp : f.ebp = s.reg .ebp
  ebx : f.ebx = s.reg .ebx
  edx : f.edx = s.reg .edx
  ecx : f.ecx = s.reg .ecx
  eax : f.eax = s.reg .eax
  gs : f.gs.toUInt16 = s.seg .gs
  fs : f.fs.toUInt16 = s.seg .fs
  es : f.es.toUInt16 = s.seg .es
  ds : f.ds.toUInt16 = s.seg .ds
  errCode : f.errCode = 0
  eip : f.eip = s.eip
  cs : f.cs.toUInt16 = s.seg .cs
  eflags : f.eflags = s.eflags
  esp : s.cpl ≠ 0 → f.esp = s.reg .esp
  ss : s.cpl ≠ 0 → f.ss.toUInt16 = s.seg .ss

end IntrStack

/-- The fields that `start_process` sets before it calls `get_a_page`, in its order. -/
def startFields (function : UInt32) : List (Nat × UInt32) := [
  (4, 0), (3, 0), (2, 0), (1, 0), -- esp_dummy, ebp, esi, edi
  (8, 0), (7, 0), (6, 0), (5, 0), -- eax, ecx, edx, ebx
  (9, 0), -- gs
  (10, selectorUData.toUInt32), (11, selectorUData.toUInt32), (12, selectorUData.toUInt32),
  (14, function), (15, selectorUCode.toUInt32),
  (16, 0x202)] -- EFLAGS_IOPL_0 | EFLAGS_MBS | EFLAGS_IF_1

/-- `start_process` of the thread `cur`. `page` is what `get_a_page` returns and `getAPage` what it
does to the memory. `self_kstack` is a `uint32_t*`, so that 32 words are added to it. -/
def startProcess (k : Kernel) (getAPage : (Nat → UInt8) → Nat → UInt8) (page cur function : UInt32)
    (s : Cpu) : Cpu :=
  let s := s.setWord cur (s.word cur + 4 * 32)
  let procStack := s.word cur
  let mem := storeFields s.mem procStack.toNat (startFields function)
  let mem := getAPage mem
  let mem := storeFields mem procStack.toNat [(17, page + 4096), (18, selectorUData.toUInt32)]
  intrExit k.usable ({ s with mem }.set .esp procStack)

/-! ### Building a frame -/

section Save

variable {m : Nat → UInt8} {base : Nat} {ws : List UInt32} {s : Cpu}

theorem saveEnvironment_reg {r : Reg} (h : r ≠ .esp) :
    (saveEnvironment s).reg r = s.reg r := by
  simp only [saveEnvironment, pushad_reg h, pushSel_reg h]

@[simp] theorem saveEnvironment_seg : (saveEnvironment s).seg = s.seg := by
  simp only [saveEnvironment, pushad_seg, pushSel_seg]

theorem saveEnvironment_stack (h : Stack m base ws s) (hroom : 4 * (ws.length + 12) ≤ base) :
    ∃ gs fs es ds dummy : UInt32, gs.toUInt16 = s.seg .gs ∧ fs.toUInt16 = s.seg .fs ∧
      es.toUInt16 = s.seg .es ∧ ds.toUInt16 = s.seg .ds ∧
      Stack m base (s.reg .edi :: s.reg .esi :: s.reg .ebp :: dummy :: s.reg .ebx :: s.reg .edx ::
        s.reg .ecx :: s.reg .eax :: gs :: fs :: es :: ds :: ws) (saveEnvironment s) := by
  have heq : saveEnvironment s = ((((s.pushSel (s.seg .ds)).pushSel (s.seg .es)).pushSel
      (s.seg .fs)).pushSel (s.seg .gs)).pushad := by
    simp only [saveEnvironment, pushSel_seg]
  obtain ⟨ds, hds, hstack⟩ := h.pushSel (by omega) (s.seg .ds)
  obtain ⟨es, hes, hstack⟩ := hstack.pushSel (by simp only [List.length_cons]; omega) (s.seg .es)
  obtain ⟨fs, hfs, hstack⟩ := hstack.pushSel (by simp only [List.length_cons]; omega) (s.seg .fs)
  obtain ⟨gs, hgs, hstack⟩ := hstack.pushSel (by simp only [List.length_cons]; omega) (s.seg .gs)
  have hall := hstack.pushad (by simp only [List.length_cons]; omega)
  rw [← heq] at hall
  simp only [pushSel_reg, ne_eq, reduceCtorEq, not_false_eq_true] at hall
  exact ⟨gs, fs, es, ds, _, hgs, hfs, hes, hds, hall⟩

theorem interrupt_saved (g : Gate) (s : Cpu) (vec : UInt32) (hroom : 72 ≤ g.stackBase s) :
    ∃ f : IntrStack, f.Saves vec s ∧
      Stack s.mem (g.stackBase s) (f.saved (s.cpl ≠ 0))
        (saveEnvironment ((interrupt g s).push 0)) := by
  obtain ⟨wcs, outer, hwcs, houter, hstack, hreg, -, hseg⟩ := interrupt_stack g s (by omega)
  have hlen := houter.length_le
  obtain ⟨gs, fs, es, ds, dummy, hgs, hfs, hes, hds, hstack⟩ :=
    saveEnvironment_stack (hstack.push (by simp only [List.length_cons]; omega) 0)
      (by simp only [List.length_cons]; omega)
  simp only [push_reg, hreg, ne_eq, reduceCtorEq, not_false_eq_true] at hstack
  rw [push_seg, hseg _ (by decide) (.inl (by decide))] at hgs hfs hes hds
  unfold OuterWords at houter
  by_cases hcpl : s.cpl ≠ 0
  · rw [if_pos hcpl] at houter
    obtain ⟨wss, hwss, rfl⟩ := houter
    refine ⟨⟨vec, _, _, _, dummy, _, _, _, _, gs, fs, es, ds, 0, s.eip, wcs, s.eflags, s.reg .esp,
      wss⟩, ⟨rfl, rfl, rfl, rfl, rfl, rfl, rfl, rfl, hgs, hfs, hes, hds, rfl, rfl, hwcs, rfl,
      fun _ => rfl, fun _ => hwss⟩, ?_⟩
    rw [IntrStack.saved, decide_eq_true hcpl]
    exact hstack
  · rw [if_neg hcpl] at houter
    subst houter
    refine ⟨⟨vec, _, _, _, dummy, _, _, _, _, gs, fs, es, ds, 0, s.eip, wcs, s.eflags, 0, 0⟩,
      ⟨rfl, rfl, rfl, rfl, rfl, rfl, rfl, rfl, hgs, hfs, hes, hds, rfl, rfl, hwcs, rfl,
      fun h => absurd h hcpl, fun h => absurd h hcpl⟩, ?_⟩
    rw [IntrStack.saved, decide_eq_false hcpl]
    exact hstack

end Save

/-! ### Leaving through a frame -/

/-- The registers are those of the frame. Within a privilege level the stack pointer goes to the end
of the frame and `ss` stays. -/
structure IntrStack.Loaded (f : IntrStack) (outer : Bool) (base : Nat) (ss : UInt16) (u : Cpu) :
    Prop where
  edi : u.reg .edi = f.edi
  esi : u.reg .esi = f.esi
  ebp : u.reg .ebp = f.ebp
  ebx : u.reg .ebx = f.ebx
  edx : u.reg .edx = f.edx
  ecx : u.reg .ecx = f.ecx
  eax : u.reg .eax = f.eax
  gs : u.seg .gs = f.gs.toUInt16
  fs : u.seg .fs = f.fs.toUInt16
  es : u.seg .es = f.es.toUInt16
  ds : u.seg .ds = f.ds.toUInt16
  eip : u.eip = f.eip
  cs : u.seg .cs = f.cs.toUInt16
  eflags : u.eflags = f.eflags
  esp : if outer then u.reg .esp = f.esp else (u.reg .esp).toNat = base
  ss : u.seg .ss = if outer then f.ss.toUInt16 else ss

section Exit

variable {m : Nat → UInt8} {base : Nat} {s t : Cpu} {f : IntrStack} {outer : Bool}
  {usable : UInt16 → Bool}

def intrExitPops (s : Cpu) : Cpu :=
  ((((((s.drop 4).popad).popSeg .gs).popSeg .fs).popSeg .es).popSeg .ds).drop 4

theorem intrExitPops_stack (h : Stack m base (f.words outer) t) :
    Stack (intrExitPops t).mem base
      (f.eip :: f.cs :: f.eflags :: if outer then [f.esp, f.ss] else []) (intrExitPops t) ∧
    (intrExitPops t).reg .edi = f.edi ∧ (intrExitPops t).reg .esi = f.esi ∧
    (intrExitPops t).reg .ebp = f.ebp ∧ (intrExitPops t).reg .ebx = f.ebx ∧
    (intrExitPops t).reg .edx = f.edx ∧ (intrExitPops t).reg .ecx = f.ecx ∧
    (intrExitPops t).reg .eax = f.eax ∧
    (intrExitPops t).seg .gs = f.gs.toUInt16 ∧ (intrExitPops t).seg .fs = f.fs.toUInt16 ∧
    (intrExitPops t).seg .es = f.es.toUInt16 ∧ (intrExitPops t).seg .ds = f.ds.toUInt16 ∧
    (intrExitPops t).seg .cs = t.seg .cs ∧ (intrExitPops t).seg .ss = t.seg .ss := by
  obtain ⟨hstack, hseg, hregs⟩ := h.drop.popad
  obtain ⟨hstack, hgs⟩ := hstack.popSeg .gs
  obtain ⟨hstack, hfs⟩ := hstack.popSeg .fs
  obtain ⟨hstack, hes⟩ := hstack.popSeg .es
  obtain ⟨hstack, hds⟩ := hstack.popSeg .ds
  have hreg : ∀ r, r ≠ .esp → (intrExitPops t).reg r = (t.drop 4).popad.reg r := by
    intro r hr
    rw [intrExitPops, drop_reg hr, popSeg_reg hr, popSeg_reg hr, popSeg_reg hr, popSeg_reg hr]
  simp only [hreg, ne_eq, reduceCtorEq, not_false_eq_true]
  obtain ⟨hedi, hesi, hebp, hebx, hedx, hecx, heax⟩ := hregs
  refine ⟨hstack.drop.now, hedi, hesi, hebp, hebx, hedx, hecx, heax, ?_⟩
  rw [intrExitPops, drop_seg, hds, hes, hfs, hgs, hseg, drop_seg]
  simp [Function.update_of_ne]

theorem intrExit_loaded (h : Stack m base (f.words outer) t) (hcpl : t.cpl = 0)
    (houter : outer = true ↔ f.cs.toUInt16 &&& 3 ≠ 0)
    (husable : outer = true → ∀ sel ∈ [f.gs.toUInt16, f.fs.toUInt16, f.es.toUInt16, f.ds.toUInt16],
      usable sel = true ∨ sel = 0) :
    f.Loaded outer base (t.seg .ss) (intrExit usable t) := by
  obtain ⟨hstack, hedi, hesi, hebp, hebx, hedx, hecx, heax, hgs, hfs, hes, hds, hcs, hss⟩ :=
    intrExitPops_stack h
  have hcpl' : (intrExitPops t).cpl = 0 := by
    rw [Cpu.cpl, hcs]
    exact hcpl
  have hdata : outer = true → ∀ r, r ≠ .cs → r ≠ .ss →
      usable ((intrExitPops t).seg r) = true ∨ (intrExitPops t).seg r = 0 := by
    intro ho r hr hr'
    cases r with
    | cs => exact absurd rfl hr
    | ss => exact absurd rfl hr'
    | ds => exact hds ▸ husable ho _ (by simp)
    | es => exact hes ▸ husable ho _ (by simp)
    | fs => exact hfs ▸ husable ho _ (by simp)
    | gs => exact hgs ▸ husable ho _ (by simp)
  obtain ⟨heip, heflags, hesp, hreg, hcs', hss', hseg⟩ :=
    @iretd_spec _ _ base usable _ _ _ _ _ outer hstack (hcpl' ▸ houter) hdata
  exact {
    edi := (hreg .edi (by decide)).trans hedi
    esi := (hreg .esi (by decide)).trans hesi
    ebp := (hreg .ebp (by decide)).trans hebp
    ebx := (hreg .ebx (by decide)).trans hebx
    edx := (hreg .edx (by decide)).trans hedx
    ecx := (hreg .ecx (by decide)).trans hecx
    eax := (hreg .eax (by decide)).trans heax
    gs := (hseg .gs (by decide) (by decide)).trans hgs
    fs := (hseg .fs (by decide) (by decide)).trans hfs
    es := (hseg .es (by decide) (by decide)).trans hes
    ds := (hseg .ds (by decide) (by decide)).trans hds
    eip := heip
    cs := hcs'
    eflags := heflags
    esp := hesp
    ss := hss ▸ hss' }

theorem restored_of_loaded {vec : UInt32} {g : Gate} {u : Cpu} (hsaves : f.Saves vec s)
    (hloaded : f.Loaded (s.cpl ≠ 0) (g.stackBase s) (t.seg .ss) u)
    (hss : s.cpl = 0 → t.seg .ss = s.seg .ss) :
    u.reg = s.reg ∧ u.seg = s.seg ∧ u.eip = s.eip ∧ u.eflags = s.eflags := by
  have hesp : u.reg .esp = s.reg .esp := by
    have hesp := hloaded.esp
    by_cases hcpl : s.cpl = 0
    · rw [if_neg (by simp [hcpl]), Gate.stackBase, if_neg (not_not_intro hcpl)] at hesp
      exact UInt32.toNat_inj.mp hesp
    · rw [if_pos (decide_eq_true hcpl)] at hesp
      exact hesp.trans (hsaves.esp hcpl)
  have hss : u.seg .ss = s.seg .ss := by
    have hss' := hloaded.ss
    by_cases hcpl : s.cpl = 0
    · rw [if_neg (by simp [hcpl])] at hss'
      exact hss'.trans (hss hcpl)
    · rw [if_pos (decide_eq_true hcpl)] at hss'
      exact hss'.trans (hsaves.ss hcpl)
  refine ⟨funext fun r => ?_, funext fun r => ?_, hloaded.eip.trans hsaves.eip,
    hloaded.eflags.trans hsaves.eflags⟩
  · cases r with
    | eax => exact hloaded.eax.trans hsaves.eax
    | ecx => exact hloaded.ecx.trans hsaves.ecx
    | edx => exact hloaded.edx.trans hsaves.edx
    | ebx => exact hloaded.ebx.trans hsaves.ebx
    | esp => exact hesp
    | ebp => exact hloaded.ebp.trans hsaves.ebp
    | esi => exact hloaded.esi.trans hsaves.esi
    | edi => exact hloaded.edi.trans hsaves.edi
  · cases r with
    | cs => exact hloaded.cs.trans hsaves.cs
    | ss => exact hss
    | ds => exact hloaded.ds.trans hsaves.ds
    | es => exact hloaded.es.trans hsaves.es
    | fs => exact hloaded.fs.trans hsaves.fs
    | gs => exact hloaded.gs.trans hsaves.gs

end Exit

/-! ### The stubs -/

/-- A state that can be interrupted: there is room on the stack, and the data segments of a program
of an outer level are ones that it can use. -/
structure Interruptible (k : Kernel) (g : Gate) (s : Cpu) : Prop where
  room : 92 ≤ g.stackBase s
  data : s.cpl ≠ 0 → ∀ r, r ≠ .cs → r ≠ .ss → k.usable (s.seg r) = true ∨ s.seg r = 0

/-- The frame of the interrupted state is on the stack. -/
def BuildsFrame (vec : UInt32) (s t : Cpu) : Prop :=
  ∃ f : IntrStack, f.Saves vec s ∧ WordsAt t.mem (t.reg .esp).toNat (f.words (s.cpl ≠ 0))

structure Restored (s u : Cpu) : Prop where
  reg : u.reg = s.reg
  seg : u.seg = s.seg
  eip : u.eip = s.eip
  eflags : u.eflags = s.eflags

section Stubs

variable {k : Kernel} {s : Cpu} {function esp0 vec : UInt32}

theorem interrupt_seg {g : Gate} (hroom : 20 ≤ g.stackBase s) :
    (interrupt g s).seg .cs = g.cs ∧ (s.cpl = 0 → (interrupt g s).seg .ss = s.seg .ss) := by
  obtain ⟨-, -, -, -, -, -, hcs, hseg⟩ := interrupt_stack g s hroom
  exact ⟨hcs, fun hcpl => hseg .ss (by decide) (.inr hcpl)⟩

/-- Leaving with the frame of `s`, in which the handler may have changed `vec_no` and with the value
`eax`. -/
theorem intrExit_restored {m : Nat → UInt8} {f : IntrStack} {t : Cpu} {x eax : UInt32}
    (h : Interruptible k (gate function esp0) s) (hsaves : f.Saves vec s)
    (hstack : Stack m ((gate function esp0).stackBase s)
      (({ f with vecNo := x, eax := eax } : IntrStack).words (s.cpl ≠ 0)) t)
    (hseg : t.seg = (interrupt (gate function esp0) s).seg) :
    Restored (s.set .eax eax) (intrExit k.usable t) := by
  obtain ⟨hcs, hss⟩ := interrupt_seg (Nat.le_trans (by decide) h.room)
  have hcpl : t.cpl = 0 := by
    rw [Cpu.cpl, hseg, hcs]
    exact (by decide : selectorKCode &&& 3 = 0)
  have houter : decide (s.cpl ≠ 0) = true ↔ f.cs.toUInt16 &&& 3 ≠ 0 := by
    rw [hsaves.cs]
    exact decide_eq_true_iff
  have husable : decide (s.cpl ≠ 0) = true →
      ∀ sel ∈ [f.gs.toUInt16, f.fs.toUInt16, f.es.toUInt16, f.ds.toUInt16],
        k.usable sel = true ∨ sel = 0 := by
    intro ho
    have hdata := h.data (of_decide_eq_true ho)
    rw [hsaves.gs, hsaves.fs, hsaves.es, hsaves.ds]
    simp only [List.mem_cons, List.not_mem_nil, or_false]
    rintro sel (rfl | rfl | rfl | rfl)
    all_goals exact hdata _ (by decide) (by decide)
  have hsaves' : ({ f with vecNo := x, eax := eax } : IntrStack).Saves x (s.set .eax eax) := by
    have hkept : ∀ r, r ≠ .eax → s.reg r = (s.set .eax eax).reg r :=
      fun r hr => (set_reg_of_ne hr).symm
    exact {
      vecNo := rfl
      edi := hsaves.edi.trans (hkept .edi (by decide))
      esi := hsaves.esi.trans (hkept .esi (by decide))
      ebp := hsaves.ebp.trans (hkept .ebp (by decide))
      ebx := hsaves.ebx.trans (hkept .ebx (by decide))
      edx := hsaves.edx.trans (hkept .edx (by decide))
      ecx := hsaves.ecx.trans (hkept .ecx (by decide))
      eax := set_reg_self.symm
      gs := hsaves.gs
      fs := hsaves.fs
      es := hsaves.es
      ds := hsaves.ds
      errCode := hsaves.errCode
      eip := hsaves.eip
      cs := hsaves.cs
      eflags := hsaves.eflags
      esp := fun hcpl => (hsaves.esp hcpl).trans (hkept .esp (by decide))
      ss := hsaves.ss }
  have hbase : (gate function esp0).stackBase (s.set .eax eax) =
      (gate function esp0).stackBase s := by
    rw [Gate.stackBase, Gate.stackBase, set_reg_of_ne (by decide)]
    rfl
  have hloaded := @intrExit_loaded _ _ _ _ _ k.usable hstack hcpl houter husable
  obtain ⟨hreg, hsegs, heip, heflags⟩ := @restored_of_loaded (s.set .eax eax) t _ x
    (gate function esp0) _ hsaves' (hbase.symm ▸ hloaded) fun hc => by rw [hseg]; exact hss hc
  exact ⟨hreg, hsegs, heip, heflags⟩

theorem saved_length (f : IntrStack) (outer : Bool) :
    16 ≤ (f.saved outer).length ∧ (f.saved outer).length ≤ 18 := by
  cases outer <;> simp [IntrStack.saved]

theorem vectorSave_stack (h : Interruptible k (gate function esp0) s)
    (hvec : vec ∉ errorCodeVectors) : ∃ f : IntrStack, f.Saves vec s ∧
      Stack s.mem ((gate function esp0).stackBase s) (f.words (s.cpl ≠ 0))
        (vectorSave vec (interrupt (gate function esp0) s)) := by
  have hroom := h.room
  obtain ⟨f, hsaves, hstack⟩ := interrupt_saved (gate function esp0) s vec (by omega)
  have hlen := (saved_length f (s.cpl ≠ 0)).2
  refine ⟨f, hsaves, ?_⟩
  rw [IntrStack.words, hsaves.vecNo, vectorSave, if_neg hvec]
  exact (hstack.set _ (by decide) _).push (by omega) vec

theorem vectorSave_seg (hvec : vec ∉ errorCodeVectors) : (vectorSave vec s).seg = s.seg := by
  rw [vectorSave, if_neg hvec]
  simp only [push_seg, Cpu.set, saveEnvironment_seg]

theorem vector_restored (h : Interruptible k (gate function esp0) s)
    (hvec : vec ∉ errorCodeVectors)
    (hhandler : Cdecl 1 ((gate function esp0).stackBase s)
      ((vectorSave vec (interrupt (gate function esp0) s)).push k.ret)
      (vectorReturn k vec (interrupt (gate function esp0) s))) :
    Restored s (vector k vec (interrupt (gate function esp0) s)) := by
  have hroom := h.room
  obtain ⟨f, hsaves, hstack⟩ := vectorSave_stack h hvec
  have hlen := (saved_length f (s.cpl ≠ 0)).2
  have hcall : Stack s.mem ((gate function esp0).stackBase s)
      (k.ret :: ([f.vecNo] ++ f.saved (s.cpl ≠ 0)))
      ((vectorSave vec (interrupt (gate function esp0) s)).push k.ret) :=
    hstack.push (by rw [IntrStack.words, List.length_cons]; omega) k.ret
  obtain ⟨args, hargs, hreturn⟩ := hcall.cdecl hhandler
  obtain ⟨x, rfl⟩ := List.length_eq_one_iff.mp hargs
  have hseg := hhandler.seg
  rw [push_seg, vectorSave_seg hvec] at hseg
  have hrestored := @intrExit_restored k s function esp0 vec _ f _ x f.eax h hsaves hreturn hseg
  have hsame : s.set .eax f.eax = s := by
    rw [hsaves.eax, Cpu.set, Function.update_eq_self]
  rwa [hsame] at hrestored

theorem syscallSave_stack (h : Interruptible k (gate function esp0) s) :
    ∃ f : IntrStack, f.Saves 0x80 s ∧
      Stack s.mem ((gate function esp0).stackBase s) (f.words (s.cpl ≠ 0))
        (syscallSave (interrupt (gate function esp0) s)) := by
  have hroom := h.room
  obtain ⟨f, hsaves, hstack⟩ := interrupt_saved (gate function esp0) s 0x80 (by omega)
  have hlen := (saved_length f (s.cpl ≠ 0)).2
  refine ⟨f, hsaves, ?_⟩
  rw [IntrStack.words, hsaves.vecNo, syscallSave]
  exact hstack.push (by omega) 0x80

theorem syscallArgs_stack {m : Nat → UInt8} {base : Nat} {ws : List UInt32} {t : Cpu}
    (h : Stack m base ws t) (hroom : 4 * (ws.length + 3) ≤ base) :
    ∃ args : List UInt32, args.length = 3 ∧ Stack m base (args ++ ws) (syscallArgs t) := by
  have h₁ := h.push (by omega) (t.reg .edx)
  have h₂ := h₁.push (by simp only [List.length_cons]; omega) ((t.push (t.reg .edx)).reg .ecx)
  have h₃ := h₂.push (by simp only [List.length_cons]; omega)
    (((t.push (t.reg .edx)).push ((t.push (t.reg .edx)).reg .ecx)).reg .ebx)
  exact ⟨[_, _, _], rfl, h₃⟩

theorem syscallArgs_seg (t : Cpu) : (syscallArgs (syscallSave t)).seg = t.seg := by
  simp only [syscallArgs, syscallSave, push_seg, saveEnvironment_seg]

/-- `syscall_handler` behind the call: the arguments are dropped, and `eax` goes into the frame. -/
theorem syscallExit_restored {m : Nat → UInt8} {f : IntrStack} {t : Cpu} {args : List UInt32}
    (h : Interruptible k (gate function esp0) s) (hsaves : f.Saves 0x80 s) (hargs : args.length = 3)
    (hstack : Stack m ((gate function esp0).stackBase s) (args ++ f.words (s.cpl ≠ 0)) t)
    (hseg : t.seg = (interrupt (gate function esp0) s).seg) :
    Restored (s.set .eax (t.reg .eax)) (intrExit k.usable ((t.drop 12).setWord
      ((t.drop 12).reg .esp + 8 * 4) ((t.drop 12).reg .eax))) := by
  obtain ⟨x, y, z, rfl⟩ := List.length_eq_three.mp hargs
  have hdrop : ((t.drop 4).drop 4).drop 4 = t.drop 12 := by
    rw [drop_drop, drop_drop]
    rfl
  have hstack : Stack ((t.drop 4).drop 4).mem ((gate function esp0).stackBase s)
      (f.words (s.cpl ≠ 0)) (t.drop 12) := hdrop ▸ hstack.drop.drop.drop
  have hlen := (saved_length f (s.cpl ≠ 0)).1
  have hat : ((t.drop 12).reg .esp + 8 * 4).toNat = ((t.drop 12).reg .esp).toNat + 4 * 8 := by
    have hesp := hstack.esp
    have hbound := hstack.bound
    rw [IntrStack.words, List.length_cons] at hesp
    rw [UInt32.toNat_add, show ((8 * 4 : UInt32)).toNat = 32 from rfl, Nat.mod_eq_of_lt (by omega)]
  have hset := @Stack.setWord _ _ _ _ ((t.drop 12).reg .eax) 8 hstack
    (by rw [IntrStack.words, List.length_cons]; omega) _ hat
  rw [← @drop_reg t .eax 12 (by decide)]
  refine @intrExit_restored k s function esp0 0x80 _ f _ f.vecNo _ h hsaves hset ?_
  rw [← hseg]
  show (t.drop 12).seg = t.seg
  exact drop_seg

theorem syscall_restored (h : Interruptible k (gate function esp0) s)
    (hfunction : Cdecl 3 ((gate function esp0).stackBase s)
      ((syscallArgs (syscallSave (interrupt (gate function esp0) s))).push k.ret)
      (syscallReturn k (interrupt (gate function esp0) s))) :
    Restored (s.set .eax ((syscallReturn k (interrupt (gate function esp0) s)).reg .eax))
      (syscallHandler k (interrupt (gate function esp0) s)).2 := by
  have hroom := h.room
  obtain ⟨f, hsaves, hstack⟩ := syscallSave_stack h
  obtain ⟨hmin, hlen⟩ := saved_length f (s.cpl ≠ 0)
  obtain ⟨args, hargs, hstack⟩ :=
    syscallArgs_stack hstack (by rw [IntrStack.words, List.length_cons]; omega)
  have hcall := hstack.push
    (by rw [List.length_append, IntrStack.words, List.length_cons]; omega) k.ret
  rw [← hargs] at hfunction
  obtain ⟨args', hargs', hreturn⟩ := hcall.cdecl hfunction
  rw [hargs] at hargs'
  have hseg := hfunction.seg
  rw [push_seg, syscallArgs_seg] at hseg
  exact syscallExit_restored h hsaves hargs' hreturn hseg

end Stubs

/-! ### The first frame of a process -/

/-- The frame in memory that is made by hand. -/
def startFrame (function page vecNo errCode : UInt32) : IntrStack where
  vecNo := vecNo
  edi := 0
  esi := 0
  ebp := 0
  espDummy := 0
  ebx := 0
  edx := 0
  ecx := 0
  eax := 0
  gs := 0
  fs := selectorUData.toUInt32
  es := selectorUData.toUInt32
  ds := selectorUData.toUInt32
  errCode := errCode
  eip := function
  cs := selectorUCode.toUInt32
  eflags := 0x202
  esp := page + 4096
  ss := selectorUData.toUInt32

theorem startFields_words (function page : UInt32) {ws : List UInt32} (hlen : ws.length = 19) :
    ∃ vecNo errCode, setFields [(17, page + 4096), (18, selectorUData.toUInt32)]
      (setFields (startFields function) ws) =
        (startFrame function page vecNo errCode).words true := by
  match ws, hlen with
  | [v, _, _, _, _, _, _, _, _, _, _, _, _, e, _, _, _, _, _], _ =>
    refine ⟨v, e, ?_⟩
    simp only [setFields_cons, setFields_nil, startFields, List.set_cons_succ, List.set_cons_zero]
    rfl

theorem startFrame_words (mem : Nat → UInt8) (getAPage : (Nat → UInt8) → Nat → UInt8) (a : Nat)
    (page function : UInt32)
    (hpage : ∀ mem b, a ≤ b → b < a + 76 → getAPage mem b = mem b) : ∃ vecNo errCode,
    WordsAt (storeFields (getAPage (storeFields mem a (startFields function))) a
      [(17, page + 4096), (18, selectorUData.toUInt32)]) a
      ((startFrame function page vecNo errCode).words true) := by
  obtain ⟨ws, hlen, hws⟩ := exists_wordsAt mem a 19
  obtain ⟨vecNo, errCode, hframe⟩ := startFields_words function page hlen
  have hlen' : (setFields (startFields function) ws).length = 19 :=
    (length_setFields ..).trans hlen
  have hindex : ∀ f ∈ startFields function, f.1 < ws.length := by
    rw [hlen]
    simp [startFields]
  have hkept : WordsAt (getAPage (storeFields mem a (startFields function))) a
      (setFields (startFields function) ws) :=
    (hws.storeFields hindex).congr fun b hb hb' => hpage _ b hb (by rwa [hlen'] at hb')
  refine ⟨vecNo, errCode, ?_⟩
  rw [← hframe]
  refine hkept.storeFields ?_
  rw [hlen']
  simp

/-- What `start_process` needs: it runs in the kernel, the frame is not at the end of the address
space, `get_a_page` does not write to it, and a user program can use the data segment. -/
structure Startable (k : Kernel) (getAPage : (Nat → UInt8) → Nat → UInt8) (procStack : UInt32)
    (s : Cpu) : Prop where
  cpl : s.cpl = 0
  fits : procStack.toNat + 76 < 2 ^ 32
  page : ∀ mem b, procStack.toNat ≤ b → b < procStack.toNat + 76 → getAPage mem b = mem b
  usable : k.usable selectorUData = true

structure Started (page function : UInt32) (u : Cpu) : Prop where
  general : ∀ r, r ≠ .esp → u.reg r = 0
  esp : u.reg .esp = page + 4096
  data : u.seg .ds = selectorUData ∧ u.seg .es = selectorUData ∧ u.seg .fs = selectorUData
  gs : u.seg .gs = 0
  ss : u.seg .ss = selectorUData
  cs : u.seg .cs = selectorUCode
  eip : u.eip = function
  eflags : u.eflags = 0x202

theorem started_of_loaded {page function vecNo errCode : UInt32} {base : Nat} {ss : UInt16}
    {u : Cpu} (h : (startFrame function page vecNo errCode).Loaded true base ss u) :
    Started page function u := by
  refine ⟨fun r hr => ?_, h.esp, ⟨h.ds, h.es, h.fs⟩, h.gs, h.ss, h.cs, h.eip, h.eflags⟩
  cases r with
  | eax => exact h.eax
  | ecx => exact h.ecx
  | edx => exact h.edx
  | ebx => exact h.ebx
  | esp => exact absurd rfl hr
  | ebp => exact h.ebp
  | esi => exact h.esi
  | edi => exact h.edi

theorem startProcess_started {k : Kernel} {getAPage : (Nat → UInt8) → Nat → UInt8} {s : Cpu}
    (page cur function : UInt32) (h : Startable k getAPage (s.word cur + 4 * 32) s) :
    Started page function (startProcess k getAPage page cur function s) := by
  have hself : (s.setWord cur (s.word cur + 4 * 32)).word cur = s.word cur + 4 * 32 :=
    wordAt_store32_self _
  simp only [startProcess, hself]
  generalize s.word cur + 4 * 32 = p at *
  obtain ⟨vecNo, errCode, hwords⟩ := startFrame_words (s.setWord cur p).mem getAPage p.toNat page
    function h.page
  refine started_of_loaded (@intrExit_loaded _ (p.toNat + 76) _
    (startFrame function page vecNo errCode) true k.usable ⟨h.fits, ?_, ?_, fun _ _ => rfl⟩
    h.cpl ?_ ?_)
  · rw [set_reg_self]
    rfl
  · rw [set_reg_self]
    exact hwords
  · exact iff_of_true rfl (show selectorUCode.toUInt32.toUInt16 &&& 3 ≠ 0 by decide)
  · intro _ sel hsel
    simp only [List.mem_cons, List.not_mem_nil, or_false] at hsel
    rcases hsel with rfl | rfl | rfl | rfl
    · exact .inr rfl
    all_goals exact .inl h.usable

/-- The stubs for the vectors `0x20` to `0x2f` and for `int 0x80` put a `struct intr_stack` of the
interrupted state on the stack, and `intr_exit` gives the state back, with what the function of a
system call returned in `eax`. Through the frame of `start_process` it loads what was put in. -/
theorem intr_frames_round_trip (k : Kernel) (s : Cpu) (function esp0 vec : UInt32)
    (hvec : 0x20 ≤ vec ∧ vec ≤ 0x2f) (h : Interruptible k (gate function esp0) s)
    (hhandler : Cdecl 1 ((gate function esp0).stackBase s)
      ((vectorSave vec (interrupt (gate function esp0) s)).push k.ret)
      (vectorReturn k vec (interrupt (gate function esp0) s)))
    (hfunction : Cdecl 3 ((gate function esp0).stackBase s)
      ((syscallArgs (syscallSave (interrupt (gate function esp0) s))).push k.ret)
      (syscallReturn k (interrupt (gate function esp0) s)))
    (getAPage : (Nat → UInt8) → Nat → UInt8) (page cur start : UInt32) (p : Cpu)
    (hp : Startable k getAPage (p.word cur + 4 * 32) p) :
    (BuildsFrame vec s (vectorSave vec (interrupt (gate function esp0) s)) ∧
      Restored s (vector k vec (interrupt (gate function esp0) s))) ∧
    (BuildsFrame 0x80 s (syscallSave (interrupt (gate function esp0) s)) ∧
      Restored (s.set .eax ((syscallReturn k (interrupt (gate function esp0) s)).reg .eax))
        (syscallHandler k (interrupt (gate function esp0) s)).2) ∧
    Started page start (startProcess k getAPage page cur start p) := by
  have hzero : vec ∉ errorCodeVectors := by
    intro hmem
    have hall : (errorCodeVectors.all fun v => decide (v < 0x20)) = true := by decide
    have hlt := of_decide_eq_true (List.all_eq_true.mp hall vec hmem)
    exact absurd hvec.1 (UInt32.not_le.mpr hlt)
  obtain ⟨f, hf, hframe⟩ := vectorSave_stack h hzero
  obtain ⟨f', hf', hframe'⟩ := syscallSave_stack h
  exact ⟨⟨⟨f, hf, hframe.words⟩, vector_restored h hzero hhandler⟩,
    ⟨⟨f', hf', hframe'.words⟩, syscall_restored h hfunction⟩,
    startProcess_started page cur start hp⟩

def idleKernel : Kernel where
  code := fun _ s => s.drop 4
  idtTable := 0x10000
  syscallTable := 0x20000
  ret := 0xc0001500
  usable := fun sel => sel == selectorUData

/-- A state in which every register is 7, at the privilege level of the selector `cs`. -/
def sampleCpu (cs ds : UInt16) : Cpu where
  reg := fun _ => 7
  seg := fun
    | .cs => cs
    | _ => ds
  eip := 0x8048000
  eflags := 0x202
  mem := fun _ => 0
  zeroExtends := false

theorem cdecl_idle (args base : Nat) (s : Cpu) : Cdecl args base s (s.drop 4) := by
  refine ⟨set_reg_self, fun r hr => drop_reg ?_, drop_seg, fun b _ _ => ?_⟩
  · rintro rfl
    exact absurd hr (by decide)
  · rw [Cpu.drop, set_mem]

theorem sample_interruptible :
    Interruptible idleKernel (gate 0xc0001600 0x9f000) (sampleCpu selectorUCode selectorUData) := by
  refine ⟨by decide +kernel, fun _ r hcs _ => .inl ?_⟩
  cases r with
  | cs => exact absurd rfl hcs
  | ss => rfl
  | ds => rfl
  | es => rfl
  | fs => rfl
  | gs => rfl

theorem sample_startable : Startable idleKernel id
    ((sampleCpu selectorKCode selectorKStack).word 0x1000 + 4 * 32)
    (sampleCpu selectorKCode selectorKStack) :=
  ⟨by decide, by decide +kernel, fun _ _ _ _ => rfl, rfl⟩

/-- The timer interrupt and a system call of a user program, and a new process. -/
theorem intr_frames_round_trip_user :
    Interruptible idleKernel (gate 0xc0001600 0x9f000) (sampleCpu selectorUCode selectorUData) ∧
    (BuildsFrame 0x20 (sampleCpu selectorUCode selectorUData) (vectorSave 0x20
        (interrupt (gate 0xc0001600 0x9f000) (sampleCpu selectorUCode selectorUData))) ∧
      Restored (sampleCpu selectorUCode selectorUData) (vector idleKernel 0x20
        (interrupt (gate 0xc0001600 0x9f000) (sampleCpu selectorUCode selectorUData)))) ∧
    Started 0xbffff000 0x8048000 (startProcess idleKernel id 0xbffff000 0x1000 0x8048000
      (sampleCpu selectorKCode selectorKStack)) := by
  have hall := intr_frames_round_trip idleKernel (sampleCpu selectorUCode selectorUData) 0xc0001600
    0x9f000 0x20 (by decide) sample_interruptible (cdecl_idle 1 _ _) (cdecl_idle 3 _ _) id
    0xbffff000 0x1000 0x8048000 (sampleCpu selectorKCode selectorKStack) sample_startable
  exact ⟨sample_interruptible, hall.1, hall.2.2⟩

end OriginOS.Entry
