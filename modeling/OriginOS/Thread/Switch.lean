import OriginOS.Lib.Sectors
import OriginOS.Lib.System

/-! `switch_to` of `thread/switch.S` and the stack that `thread_create` prepares, on a processor
with a byte memory. -/

namespace OriginOS.ContextSwitch

open Lib

structure Cpu where
  eax : UInt32
  ebx : UInt32
  ebp : UInt32
  esi : UInt32
  edi : UInt32
  esp : UInt32
  eip : UInt32
  mem : Nat → UInt8

inductive Reg where
  | ebx | ebp | esi | edi
deriving DecidableEq, Repr

def Reg.get (s : Cpu) : Reg → UInt32
  | ebx => s.ebx
  | ebp => s.ebp
  | esi => s.esi
  | edi => s.edi

def Reg.set (s : Cpu) (v : UInt32) : Reg → Cpu
  | ebx => { s with ebx := v }
  | ebp => { s with ebp := v }
  | esi => { s with esi := v }
  | edi => { s with edi := v }

inductive Instr where
  /-- `push r` -/
  | push (r : Reg)
  /-- `pop r` -/
  | pop (r : Reg)
  /-- `mov eax, [esp + k]` -/
  | loadArg (k : UInt32)
  /-- `mov [eax], esp` -/
  | saveEsp
  /-- `mov esp, [eax]` -/
  | loadEsp
  | ret
deriving DecidableEq, Repr

def Cpu.push (s : Cpu) (v : UInt32) : Cpu :=
  { s with esp := s.esp - 4, mem := store32 s.mem (s.esp - 4).toNat v.toNat }

def Instr.exec (s : Cpu) : Instr → Cpu
  | push r => s.push (r.get s)
  | pop r => { r.set s (wordAt s.mem s.esp.toNat) with esp := s.esp + 4 }
  | loadArg k => { s with eax := wordAt s.mem (s.esp + k).toNat }
  | saveEsp => { s with mem := store32 s.mem s.eax.toNat s.esp.toNat }
  | loadEsp => { s with esp := wordAt s.mem s.eax.toNat }
  | ret => { s with eip := wordAt s.mem s.esp.toNat, esp := s.esp + 4 }

def switchTo : List Instr :=
  [.push .esi, .push .edi, .push .ebx, .push .ebp, .loadArg 20, .saveEsp, .loadArg 24, .loadEsp,
    .pop .ebp, .pop .ebx, .pop .edi, .pop .esi, .ret]

/-- `call switch_to`, with the address `ret` of the instruction behind it, up to the `ret` of
`switch_to`. -/
def callSwitchTo (s : Cpu) (ret : UInt32) : Cpu := switchTo.foldl Instr.exec (s.push ret)

def sizeofTaskStruct : Nat := 272

/-- The part of `init_thread` that `switch_to` depends on: `memset` and `self_kstack`. The other
fields are as any other memory here. -/
def initThread (mem : Nat → UInt8) (pthread : UInt32) : Nat → UInt8 :=
  store32 (fill mem pthread.toNat sizeofTaskStruct 0) pthread.toNat (pthread + 4096).toNat

/-- The assignments to the fields of the `struct thread_stack` at `kthreadStack`. -/
def threadStack (kernelThread : UInt32) (mem : Nat → UInt8)
    (kthreadStack function funcArg : UInt32) :
    Nat → UInt8 :=
  let mem := store32 mem (kthreadStack + 16).toNat kernelThread.toNat
  let mem := store32 mem (kthreadStack + 24).toNat function.toNat
  let mem := store32 mem (kthreadStack + 28).toNat funcArg.toNat
  let mem := store32 mem (kthreadStack + 12).toNat (0 : UInt32).toNat
  let mem := store32 mem (kthreadStack + 8).toNat (0 : UInt32).toNat
  let mem := store32 mem (kthreadStack + 4).toNat (0 : UInt32).toNat
  store32 mem kthreadStack.toNat (0 : UInt32).toNat

/-- `thread_create`. The stack pointer is a `uint32_t*`, so that the sizes 76 of `struct intr_stack`
and 32 of `struct thread_stack` are counted in words. -/
def threadCreate (kernelThread : UInt32) (mem : Nat → UInt8) (pthread function funcArg : UInt32) :
    Nat → UInt8 :=
  let mem := store32 mem pthread.toNat (wordAt mem pthread.toNat - 4 * 76).toNat
  let mem := store32 mem pthread.toNat (wordAt mem pthread.toNat - 4 * 32).toNat
  threadStack kernelThread mem (wordAt mem pthread.toNat) function funcArg

/-! ### The effect of a switch -/

/-- The memory in which the return address and the registers have been pushed. -/
def pushedMem (s : Cpu) (ret : UInt32) : Nat → UInt8 :=
  let e := s.esp.toNat
  let mem := store32 s.mem (e - 4) ret.toNat
  let mem := store32 mem (e - 8) s.esi.toNat
  let mem := store32 mem (e - 12) s.edi.toNat
  let mem := store32 mem (e - 16) s.ebx.toNat
  store32 mem (e - 20) s.ebp.toNat

/-- The memory in which `self_kstack` of `cur` has been set as well. -/
def savedMem (s : Cpu) (ret cur : UInt32) : Nat → UInt8 :=
  store32 (pushedMem s ret) cur.toNat (s.esp - 20).toNat

/-- The registers that are popped from the stack of a thread, and where it goes on. -/
def resumedFrom (mem : Nat → UInt8) (kstack eax : UInt32) : Cpu where
  eax := eax
  ebp := wordAt mem kstack.toNat
  ebx := wordAt mem (kstack + 4).toNat
  edi := wordAt mem (kstack + 8).toNat
  esi := wordAt mem (kstack + 12).toNat
  eip := wordAt mem (kstack + 16).toNat
  esp := kstack + 20
  mem := mem

section Switch

variable {s : Cpu} {ret cur next : UInt32}

theorem toNat_sub_of_le {a b : UInt32} (h : b.toNat ≤ a.toNat) :
    (a - b).toNat = a.toNat - b.toNat :=
  UInt32.toNat_sub_of_le a b (UInt32.le_iff_toNat_le.mpr h)

theorem toNat_sub_four {e : UInt32} {n : Nat} (h : e.toNat = n) (hn : 4 ≤ n) :
    (e - 4).toNat = n - 4 := by
  rw [toNat_sub_of_le (by simp; omega), h]
  rfl

/-- The arguments of the call are above what is pushed, and the thread's own `self_kstack` is not
there. -/
structure CallFrame (s : Cpu) (cur next : UInt32) : Prop where
  low : cur.toNat + sizeofTaskStruct + 20 ≤ s.esp.toNat
  high : s.esp.toNat + 8 ≤ cur.toNat + 4096
  argCur : wordAt s.mem s.esp.toNat = cur
  argNext : wordAt s.mem (s.esp.toNat + 4) = next

theorem pushedMem_apply_of_not {a : Nat} (h20 : 20 ≤ s.esp.toNat)
    (ha : a < s.esp.toNat - 20 ∨ s.esp.toNat ≤ a) : pushedMem s ret a = s.mem a := by
  unfold pushedMem
  rw [store32_apply_of_not (by omega), store32_apply_of_not (by omega),
    store32_apply_of_not (by omega),
    store32_apply_of_not (by omega), store32_apply_of_not (by omega)]

theorem wordAt_pushedMem_of_above {a : Nat} (h20 : 20 ≤ s.esp.toNat) (ha : s.esp.toNat ≤ a) :
    wordAt (pushedMem s ret) a = wordAt s.mem a :=
  wordAt_congr fun b hb _ => pushedMem_apply_of_not h20 (by omega)

/-- The four registers and the return address are pushed, then `esp` is saved and that of the other
thread is loaded. -/
theorem callSwitchTo_eq (h : CallFrame s cur next) (hsmall : cur.toNat + 4096 ≤ 2 ^ 32) :
    callSwitchTo s ret = resumedFrom (savedMem s ret cur)
      (wordAt (savedMem s ret cur) next.toNat) next := by
  have hlow := h.low
  have hhigh := h.high
  unfold sizeofTaskStruct at hlow
  have h4 := toNat_sub_four (e := s.esp) rfl (by omega)
  have h8 := toNat_sub_four h4 (by omega)
  have h12 := toNat_sub_four h8 (by omega)
  have h16 := toNat_sub_four h12 (by omega)
  have h20 := toNat_sub_four h16 (by omega)
  simp only [Nat.sub_sub, Nat.reduceAdd] at h8 h12 h16 h20
  have h20' : (s.esp - 20).toNat = s.esp.toNat - 20 := toNat_sub_of_le (by simp; omega)
  have hesp : s.esp - 4 - 4 - 4 - 4 - 4 = s.esp - 20 := UInt32.toNat_inj.mp (h20.trans h20'.symm)
  have harg : (s.esp - 20 + 20).toNat = s.esp.toNat := by rw [UInt32.sub_add_cancel]
  have harg' : (s.esp - 20 + 24).toNat = s.esp.toNat + 4 := by
    rw [UInt32.toNat_add, h20']
    simp
    omega
  have hcur : wordAt (pushedMem s ret) s.esp.toNat = cur := by
    rw [wordAt_pushedMem_of_above (by omega) (by omega), h.argCur]
  have hnext : wordAt (store32 (pushedMem s ret) cur.toNat (s.esp.toNat - 20))
    (s.esp.toNat + 4) = next := by
    rw [wordAt_store32_of_disjoint (by omega), wordAt_pushedMem_of_above (by omega)
      (by omega), h.argNext]
  have hrun : callSwitchTo s ret = switchTo.tail.tail.tail.tail.foldl Instr.exec
      { s with esp := s.esp - 20, mem := pushedMem s ret } := by
    simp only [callSwitchTo, switchTo, List.tail_cons, List.foldl, Instr.exec, Cpu.push, Reg.get,
      h4, h8, h12, h16, hesp, h20', pushedMem]
  rw [hrun]
  simp only [switchTo, List.tail_cons, List.foldl, Instr.exec, Reg.set, harg, harg', hcur, h20',
    hnext, UInt32.add_assoc]
  rw [savedMem, h20']
  rfl

end Switch

/-! ### Threads that do not run -/

/-- What was last done to a thread that does not run: it was switched out with these registers, or
it was created. -/
inductive Parked where
  | out (ebp ebx esi edi esp eip : UInt32)
  | fresh (function funcArg : UInt32)
deriving DecidableEq, Repr

/-- The bytes of a thread's page that only the thread itself writes: `self_kstack` and the stack. -/
def OwnStack (pthread : UInt32) (a : Nat) : Prop :=
  (pthread.toNat ≤ a ∧ a < pthread.toNat + 4) ∨
    (pthread.toNat + sizeofTaskStruct ≤ a ∧ a < pthread.toNat + 4096)

/-- `self_kstack` is `kstack`, where the values that `switch_to` pops are. -/
structure Stacked (mem : Nat → UInt8) (pthread kstack ebp ebx edi esi eip : UInt32) : Prop where
  pointer : wordAt mem pthread.toNat = kstack
  low : pthread.toNat + sizeofTaskStruct ≤ kstack.toNat
  high : kstack.toNat + 20 ≤ pthread.toNat + 4096
  ebp : wordAt mem kstack.toNat = ebp
  ebx : wordAt mem (kstack.toNat + 4) = ebx
  edi : wordAt mem (kstack.toNat + 8) = edi
  esi : wordAt mem (kstack.toNat + 12) = esi
  eip : wordAt mem (kstack.toNat + 16) = eip

/-- The offset of `struct thread_stack` in the page of a new thread. -/
def firstKstack : Nat := 4096 - 4 * 76 - 4 * 32

/-- The page of a thread holds what it needs to go on. -/
def Parked.Holds (kernelThread : UInt32) (mem : Nat → UInt8) (pthread : UInt32) : Parked → Prop
  | out ebp ebx esi edi esp eip => Stacked mem pthread (esp - 20) ebp ebx edi esi eip ∧
      20 ≤ esp.toNat
  | fresh function funcArg =>
    Stacked mem pthread (pthread + UInt32.ofNat firstKstack) 0 0 0 0 kernelThread ∧
      wordAt mem (pthread.toNat + firstKstack + 24) = function ∧
      wordAt mem (pthread.toNat + firstKstack + 28) = funcArg

/-- The thread goes on where it was, or begins in `kernel_thread` with its two arguments. -/
def Parked.Resumed (kernelThread pthread : UInt32) (s : Cpu) : Parked → Prop
  | out ebp ebx esi edi esp eip =>
    s.ebp = ebp ∧ s.ebx = ebx ∧ s.esi = esi ∧ s.edi = edi ∧ s.esp = esp ∧ s.eip = eip
  | fresh function funcArg =>
    s.eip = kernelThread ∧ wordAt s.mem (s.esp.toNat + 4) = function ∧
      wordAt s.mem (s.esp.toNat + 8) = funcArg ∧
      pthread.toNat + sizeofTaskStruct ≤ s.esp.toNat ∧ s.esp.toNat + 12 ≤ pthread.toNat + 4096

section Parked

variable {mem mem' : Nat → UInt8} {pthread kernelThread kstack ebp ebx edi esi eip : UInt32}

theorem Stacked.congr (h : Stacked mem pthread kstack ebp ebx edi esi eip)
    (hmem : ∀ a, OwnStack pthread a → mem' a = mem a) :
    Stacked mem' pthread kstack ebp ebx edi esi eip := by
  have hlow := h.low
  have hhigh := h.high
  have hword : ∀ k, k + 4 ≤ 20 → wordAt mem' (kstack.toNat + k) = wordAt mem (kstack.toNat + k) :=
    fun k hk => wordAt_congr fun b hb hb' => hmem b (.inr (by omega))
  refine ⟨?_, hlow, hhigh, ?_, ?_, ?_, ?_, ?_⟩
  · exact (wordAt_congr fun b hb hb' => hmem b (.inl (by omega))).trans h.pointer
  · exact (hword 0 (by omega)).trans h.ebp
  · exact (hword 4 (by omega)).trans h.ebx
  · exact (hword 8 (by omega)).trans h.edi
  · exact (hword 12 (by omega)).trans h.esi
  · exact (hword 16 (by omega)).trans h.eip

theorem Parked.Holds.congr {p : Parked} (h : p.Holds kernelThread mem pthread)
    (hmem : ∀ a, OwnStack pthread a → mem' a = mem a) : p.Holds kernelThread mem' pthread := by
  cases p with
  | out ebp ebx esi edi esp eip => exact ⟨h.1.congr hmem, h.2⟩
  | fresh function funcArg =>
    obtain ⟨hstack, hfunction, harg⟩ := h
    have hword : ∀ k, k + 4 ≤ 32 → wordAt mem' (pthread.toNat + firstKstack + k) =
        wordAt mem (pthread.toNat + firstKstack + k) := fun k hk =>
      wordAt_congr fun b hb hb' =>
      hmem b (.inr (by unfold firstKstack sizeofTaskStruct at *; omega))
    exact ⟨hstack.congr hmem, (hword 24 (by omega)).trans hfunction,
      (hword 28 (by omega)).trans harg⟩

theorem toNat_add_of_lt {a b : UInt32} (h : a.toNat + b.toNat < 2 ^ 32) :
    (a + b).toNat = a.toNat + b.toNat := by
  rw [UInt32.toNat_add, Nat.mod_eq_of_lt h]

theorem Stacked.resumed (h : Stacked mem pthread kstack ebp ebx edi esi eip)
    (hsmall : pthread.toNat + 4096 ≤ 2 ^ 32) (eax : UInt32) :
    resumedFrom mem (wordAt mem pthread.toNat) eax =
      ⟨eax, ebx, ebp, esi, edi, kstack + 20, eip, mem⟩ := by
  have hhigh := h.high
  have hoff : ∀ k : UInt32, k.toNat ≤ 16 → (kstack + k).toNat = kstack.toNat + k.toNat :=
    fun k hk => toNat_add_of_lt (by omega)
  rw [h.pointer, resumedFrom, hoff 4 (by decide), hoff 8 (by decide), hoff 12 (by decide),
    hoff 16 (by decide)]
  simp only [h.ebp, ← h.ebx, ← h.edi, ← h.esi, ← h.eip]
  rfl

theorem Parked.Holds.resumed {p : Parked} (h : p.Holds kernelThread mem pthread)
    (hsmall : pthread.toNat + 4096 ≤ 2 ^ 32) (eax : UInt32) :
    p.Resumed kernelThread pthread (resumedFrom mem (wordAt mem pthread.toNat) eax) := by
  cases p with
  | out ebp ebx esi edi esp eip =>
    rw [h.1.resumed hsmall]
    exact ⟨rfl, rfl, rfl, rfl, UInt32.sub_add_cancel esp 20, rfl⟩
  | fresh function funcArg =>
    obtain ⟨hstack, hfunction, harg⟩ := h
    have hk : (pthread + UInt32.ofNat firstKstack + 20).toNat =
      pthread.toNat + firstKstack + 20 := by
      rw [UInt32.toNat_add, UInt32.toNat_add]
      simp [firstKstack]
      omega
    rw [hstack.resumed hsmall]
    refine ⟨rfl, ?_, ?_, ?_, ?_⟩
    · rw [hk]; exact hfunction
    · rw [hk]; exact harg
    · rw [hk]; unfold firstKstack sizeofTaskStruct; omega
    · rw [hk]; unfold firstKstack; omega

end Parked

/-! ### What the two operations leave behind -/

section Leave

variable {s : Cpu} {ret cur next pthread kernelThread function funcArg : UInt32} {mem : Nat → UInt8}

theorem savedMem_apply_of_not {a : Nat} (h : CallFrame s cur next)
    (ha : a < cur.toNat ∨ cur.toNat + 4096 ≤ a) : savedMem s ret cur a = s.mem a := by
  have hlow := h.low
  have hhigh := h.high
  unfold sizeofTaskStruct at hlow
  rw [savedMem, store32_apply_of_not (by omega), pushedMem_apply_of_not (by omega) (by omega)]

theorem CallFrame.stacked (h : CallFrame s cur next) :
    Stacked (savedMem s ret cur) cur (s.esp - 20) s.ebp s.ebx s.edi s.esi ret := by
  have hlow := h.low
  have hhigh := h.high
  unfold sizeofTaskStruct at hlow
  have hk : (s.esp - 20).toNat = s.esp.toNat - 20 := toNat_sub_of_le (by simp; omega)
  have hword : ∀ a, s.esp.toNat - 20 ≤ a → wordAt (savedMem s ret cur) a =
    wordAt (pushedMem s ret) a :=
    fun a ha => wordAt_store32_of_disjoint (by omega)
  refine ⟨wordAt_store32_self _, by unfold sizeofTaskStruct; omega, by omega, ?_, ?_, ?_, ?_, ?_⟩
  · rw [hword _ (by omega), hk]
    exact wordAt_store32_self s.ebp
  · rw [hword _ (by omega), show (s.esp - 20).toNat + 4 = s.esp.toNat - 16 by omega, pushedMem,
      wordAt_store32_of_disjoint (by omega), wordAt_store32_self]
  · rw [hword _ (by omega), show (s.esp - 20).toNat + 8 = s.esp.toNat - 12 by omega, pushedMem,
      wordAt_store32_of_disjoint (by omega), wordAt_store32_of_disjoint (by omega),
      wordAt_store32_self]
  · rw [hword _ (by omega), show (s.esp - 20).toNat + 12 = s.esp.toNat - 8 by omega, pushedMem,
      wordAt_store32_of_disjoint (by omega), wordAt_store32_of_disjoint (by omega),
      wordAt_store32_of_disjoint (by omega), wordAt_store32_self]
  · rw [hword _ (by omega), show (s.esp - 20).toNat + 16 = s.esp.toNat - 4 by omega, pushedMem,
      wordAt_store32_of_disjoint (by omega), wordAt_store32_of_disjoint (by omega),
      wordAt_store32_of_disjoint (by omega), wordAt_store32_of_disjoint (by omega),
      wordAt_store32_self]

theorem toNat_firstKstack (hsmall : pthread.toNat + 4096 ≤ 2 ^ 32) :
    (pthread + UInt32.ofNat firstKstack).toNat = pthread.toNat + firstKstack := by
  rw [UInt32.toNat_add]
  simp [firstKstack]
  omega

/-- The memory that `thread_create` leaves after `init_thread`. -/
def createdMem (kernelThread : UInt32) (mem : Nat → UInt8) (pthread function funcArg : UInt32) :
    Nat → UInt8 :=
  threadCreate kernelThread (initThread mem pthread) pthread function funcArg

/-- The memory in which only `self_kstack` of the new thread has been set. -/
def kstackMem (mem : Nat → UInt8) (pthread : UInt32) : Nat → UInt8 :=
  store32 (store32 (initThread mem pthread) pthread.toNat (pthread + 4096 - 4 * 76).toNat)
    pthread.toNat (pthread + UInt32.ofNat firstKstack).toNat

theorem createdMem_eq (hsmall : pthread.toNat + 4096 ≤ 2 ^ 32) :
    createdMem kernelThread mem pthread function funcArg =
      threadStack kernelThread (kstackMem mem pthread) (pthread + UInt32.ofNat firstKstack)
        function funcArg := by
  have hk : pthread + 4096 - 4 * 76 - 4 * 32 = pthread + UInt32.ofNat firstKstack := by
    apply UInt32.toNat_inj.mp
    rw [toNat_firstKstack hsmall]
    simp only [UInt32.toNat_sub, UInt32.toNat_add, UInt32.toNat_mul]
    simp [firstKstack]
    omega
  unfold createdMem threadCreate kstackMem
  simp only [initThread, wordAt_store32_self, hk]

theorem kstackMem_apply_of_not {a : Nat} (ha : a < pthread.toNat ∨ pthread.toNat + 272 ≤ a) :
    kstackMem mem pthread a = mem a := by
  rw [kstackMem, store32_apply_of_not (by omega), store32_apply_of_not (by omega), initThread,
    store32_apply_of_not (by omega)]
  exact fill_apply_of_not ha

section ThreadStack

variable {k : UInt32}

theorem threadStack_eq (hk : k.toNat + 32 ≤ 2 ^ 32) :
    threadStack kernelThread mem k function funcArg =
    store32
    (store32 (store32 (store32 (store32 (store32 (store32 mem (k.toNat + 16) kernelThread.toNat)
      (k.toNat + 24) function.toNat) (k.toNat + 28) funcArg.toNat) (k.toNat + 12)
      (0 : UInt32).toNat)
      (k.toNat + 8) (0 : UInt32).toNat) (k.toNat + 4) (0 : UInt32).toNat) k.toNat (0 :
      UInt32).toNat := by
  have hoff : ∀ o : UInt32, o.toNat ≤ 28 → (k + o).toNat = k.toNat + o.toNat :=
    fun o ho => toNat_add_of_lt (by omega)
  unfold threadStack
  rw [hoff 16 (by decide), hoff 24 (by decide), hoff 28 (by decide), hoff 12 (by decide),
    hoff 8 (by decide), hoff 4 (by decide)]
  rfl

theorem threadStack_apply_of_not {a : Nat} (hk : k.toNat + 32 ≤ 2 ^ 32)
    (ha : a < k.toNat ∨ k.toNat + 32 ≤ a) :
    threadStack kernelThread mem k function funcArg a = mem a := by
  rw [threadStack_eq hk, store32_apply_of_not (by omega), store32_apply_of_not (by omega),
    store32_apply_of_not (by omega), store32_apply_of_not (by omega),
    store32_apply_of_not (by omega),
    store32_apply_of_not (by omega), store32_apply_of_not (by omega)]

end ThreadStack

theorem createdMem_apply_of_not {a : Nat} (hsmall : pthread.toNat + 4096 ≤ 2 ^ 32)
    (ha : a < pthread.toNat ∨ pthread.toNat + 4096 ≤ a) :
    createdMem kernelThread mem pthread function funcArg a = mem a := by
  have hk := toNat_firstKstack hsmall
  unfold firstKstack at hk
  rw [createdMem_eq hsmall, threadStack_apply_of_not (by unfold firstKstack; omega)
    (by unfold firstKstack; omega), kstackMem_apply_of_not (by omega)]

theorem createdMem_holds (hsmall : pthread.toNat + 4096 ≤ 2 ^ 32) :
    (Parked.fresh function funcArg).Holds kernelThread
      (createdMem kernelThread mem pthread function funcArg) pthread := by
  have hk := toNat_firstKstack hsmall
  have hbound : (pthread + UInt32.ofNat firstKstack).toNat + 32 ≤ 2 ^ 32 := by
    rw [hk]
    unfold firstKstack
    omega
  rw [createdMem_eq hsmall]
  refine ⟨⟨?_, ?_, ?_, ?_, ?_, ?_, ?_, ?_⟩, ?_, ?_⟩
  · rw [wordAt_congr fun b hb hb' => threadStack_apply_of_not hbound
      (by rw [hk]; unfold firstKstack; omega)]
    exact wordAt_store32_self _
  · rw [hk]
    unfold firstKstack sizeofTaskStruct
    omega
  · rw [hk]
    unfold firstKstack
    omega
  all_goals rw [threadStack_eq hbound]
  · exact wordAt_store32_self 0
  · rw [wordAt_store32_of_disjoint (by omega), wordAt_store32_self]
  · rw [wordAt_store32_of_disjoint (by omega), wordAt_store32_of_disjoint (by omega),
      wordAt_store32_self]
  · rw [wordAt_store32_of_disjoint (by omega), wordAt_store32_of_disjoint (by omega),
      wordAt_store32_of_disjoint (by omega), wordAt_store32_self]
  · rw [wordAt_store32_of_disjoint (by omega), wordAt_store32_of_disjoint (by omega),
      wordAt_store32_of_disjoint (by omega), wordAt_store32_of_disjoint (by omega),
      wordAt_store32_of_disjoint (by omega), wordAt_store32_of_disjoint (by omega),
      wordAt_store32_self]
  · rw [← hk, wordAt_store32_of_disjoint (by omega), wordAt_store32_of_disjoint (by omega),
      wordAt_store32_of_disjoint (by omega), wordAt_store32_of_disjoint (by omega),
      wordAt_store32_of_disjoint (by omega), wordAt_store32_self]
  · rw [← hk, wordAt_store32_of_disjoint (by omega), wordAt_store32_of_disjoint (by omega),
      wordAt_store32_of_disjoint (by omega), wordAt_store32_of_disjoint (by omega),
      wordAt_store32_self]

end Leave

/-! ### Runs of several threads -/

/-- The processor, the page of the thread that runs, and the pages of all threads. -/
structure SwitchWorld where
  cpu : Cpu
  cur : UInt32
  threads : List UInt32

/-- The steps of the threads: the running one computes, creates a thread, or calls `switch_to` with
the return address `ret`. -/
inductive SwitchAct where
  | compute (cpu : Cpu)
  | create (pthread function funcArg : UInt32)
  | switchTo (next ret : UInt32)

namespace SwitchWorld

def Admits (w : SwitchWorld) : SwitchAct → Prop
  | .compute cpu => ∀ t ∈ w.threads, t ≠ w.cur → ∀ a, OwnStack t a → cpu.mem a = w.cpu.mem a
  | .create pthread _ _ => pthread ∉ w.threads ∧ pthread.toNat % 4096 = 0
  | .switchTo next _ => next ∈ w.threads ∧ CallFrame w.cpu w.cur next

def exec (kernelThread : UInt32) (w : SwitchWorld) : SwitchAct → SwitchWorld
  | .compute cpu => { w with cpu := cpu }
  | .create pthread function funcArg =>
    { w with
      cpu := { w.cpu with mem := createdMem kernelThread w.cpu.mem pthread function funcArg }
      threads := pthread :: w.threads }
  | .switchTo next ret => { w with cpu := callSwitchTo w.cpu ret, cur := next }

end SwitchWorld

/-- The system of threads: at first the main thread runs. -/
def switchSystem (kernelThread : UInt32) : System SwitchWorld SwitchAct Empty where
  init w := w.threads = [w.cur] ∧ w.cur.toNat % 4096 = 0
  guard w act := w.Admits act
  exec act w := .ok (w.exec kernelThread act)

/-- What the run last did to the thread: the registers with which it called `switch_to`, or the
arguments of `thread_create`. -/
def lastEvent (t : UInt32) : List (SwitchWorld × SwitchAct) → Option Parked
  | [] => none
  | (w, .switchTo _ ret) :: tr =>
    if w.cur = t then
      some (.out w.cpu.ebp w.cpu.ebx w.cpu.esi w.cpu.edi w.cpu.esp ret)
    else lastEvent t tr
  | (_, .create pthread function funcArg) :: tr =>
    if pthread = t then some (.fresh function funcArg) else lastEvent t tr
  | (_, .compute _) :: tr => lastEvent t tr

structure SwitchInv (kernelThread : UInt32) (tr : List (SwitchWorld × SwitchAct))
    (w : SwitchWorld) :
    Prop where
  pages : ∀ t ∈ w.threads, t.toNat % 4096 = 0
  running : w.cur ∈ w.threads
  parked : ∀ t ∈ w.threads, t ≠ w.cur →
    ∃ p, lastEvent t tr = some p ∧ p.Holds kernelThread w.cpu.mem t

section Runs

variable {kernelThread : UInt32} {tr : List (SwitchWorld × SwitchAct)} {w w' : SwitchWorld}

theorem OwnStack.off_page {t u : UInt32} {a : Nat} (h : OwnStack t a) (ht : t.toNat % 4096 = 0)
    (hu : u.toNat % 4096 = 0) (hne : t ≠ u) : a < u.toNat ∨ u.toNat + 4096 ≤ a := by
  have hne' : t.toNat ≠ u.toNat := fun heq => hne (UInt32.toNat_inj.mp heq)
  unfold OwnStack at h
  omega

theorem page_small {t : UInt32} (ht : t.toNat % 4096 = 0) : t.toNat + 4096 ≤ 2 ^ 32 := by
  have := t.toNat_lt
  omega

theorem SwitchInv.switchTo (h : SwitchInv kernelThread tr w) {next : UInt32} (ret : UInt32)
    (hframe : CallFrame w.cpu w.cur next) {t : UInt32} (ht : t ∈ w.threads) :
    ∃ p, lastEvent t ((w, .switchTo next ret) :: tr) = some p ∧
      p.Holds kernelThread (savedMem w.cpu ret w.cur) t := by
  rw [lastEvent]
  rcases eq_or_ne t w.cur with rfl | hne
  · have hlow := hframe.low
    exact ⟨_, if_pos rfl, hframe.stacked, by unfold sizeofTaskStruct at hlow; omega⟩
  · obtain ⟨p, hp, hholds⟩ := h.parked t ht hne
    refine ⟨p, (if_neg (Ne.symm hne)).trans hp, hholds.congr fun a ha => ?_⟩
    exact savedMem_apply_of_not hframe (ha.off_page (h.pages t ht) (h.pages _ h.running) hne)

theorem SwitchInv.mem_switchTo (h : SwitchInv kernelThread tr w) {next ret : UInt32}
    (hframe : CallFrame w.cpu w.cur next) :
    callSwitchTo w.cpu ret = resumedFrom (savedMem w.cpu ret w.cur)
      (wordAt (savedMem w.cpu ret w.cur) next.toNat) next :=
  callSwitchTo_eq hframe (page_small (h.pages _ h.running))

theorem SwitchInv.step (h : SwitchInv kernelThread tr w) {act : SwitchAct} (hadm : w.Admits act) :
    SwitchInv kernelThread ((w, act) :: tr) (w.exec kernelThread act) := by
  cases act with
  | compute cpu =>
    refine ⟨h.pages, h.running, fun t ht hne => ?_⟩
    obtain ⟨p, hp, hholds⟩ := h.parked t ht hne
    exact ⟨p, hp, hholds.congr (hadm t ht hne)⟩
  | create pthread function funcArg =>
    obtain ⟨hnew, hpage⟩ := hadm
    refine ⟨?_, List.mem_cons_of_mem _ h.running, fun t ht hne => ?_⟩
    · intro t ht
      rcases List.mem_cons.mp ht with rfl | ht
      · exact hpage
      · exact h.pages t ht
    · rcases List.mem_cons.mp ht with rfl | ht
      · exact ⟨_, if_pos rfl, createdMem_holds (page_small hpage)⟩
      · obtain ⟨p, hp, hholds⟩ := h.parked t ht hne
        have hother : t ≠ pthread := fun heq => hnew (heq ▸ ht)
        refine ⟨p, (if_neg (Ne.symm hother)).trans hp, hholds.congr fun a ha => ?_⟩
        exact createdMem_apply_of_not (page_small hpage) (ha.off_page (h.pages t ht) hpage hother)
  | switchTo next ret =>
    obtain ⟨hnext, hframe⟩ := hadm
    rw [SwitchWorld.exec, h.mem_switchTo hframe]
    refine ⟨h.pages, hnext, fun t ht _ => ?_⟩
    exact h.switchTo ret hframe ht

theorem switchInv_of_run (run : (switchSystem kernelThread).Run tr w) :
    SwitchInv kernelThread tr w := by
  induction run with
  | @start w hinit =>
    obtain ⟨hthreads, hpage⟩ := hinit
    refine ⟨fun t ht => ?_, ?_, fun t ht hne => ?_⟩
    · rw [hthreads, List.mem_singleton] at ht
      rwa [ht]
    · rw [hthreads]
      exact List.mem_cons_self
    · rw [hthreads, List.mem_singleton] at ht
      exact absurd ht hne
  | @next tr w w' act run step ih =>
    obtain rfl : w.exec kernelThread act = w' := Except.ok.inj step.2
    exact ih.step step.1

end Runs

/-- In every run, a thread that is switched in goes on as it last called `switch_to`, or, if it has
not run yet, begins in `kernel_thread` with what `thread_create` was given. -/
theorem context_switch_preserves (kernelThread : UInt32) {tr : List (SwitchWorld × SwitchAct)}
    {w w' : SwitchWorld} (run : (switchSystem kernelThread).Run tr w) (next ret : UInt32)
    (step : (switchSystem kernelThread).Step w (.switchTo next ret) w') :
    w'.cur = next ∧ ∃ p, lastEvent next ((w, .switchTo next ret) :: tr) = some p ∧
      p.Resumed kernelThread next w'.cpu := by
  have inv := switchInv_of_run run
  obtain ⟨hnext, hframe⟩ := step.1
  obtain rfl : w.exec kernelThread (.switchTo next ret) = w' := Except.ok.inj step.2
  obtain ⟨p, hp, hholds⟩ := inv.switchTo ret hframe hnext
  rw [SwitchWorld.exec, inv.mem_switchTo hframe]
  refine ⟨rfl, p, hp, ?_⟩
  exact hholds.resumed (page_small (inv.pages next hnext)) next

/-- The main thread on its stack, with a new thread and the arguments of `switch_to` at the top of
the stack. -/
def firstSwitch : SwitchWorld where
  cpu := ⟨0, 1, 2, 3, 4, 0xc009ef00, 0xc0001530,
    store32 (store32 (createdMem 0xc0001500 (fun _ => 0) 0xc0101000 0xc0002000 7)
      0xc009ef00 (0xc009e000 : UInt32).toNat) 0xc009ef04 (0xc0101000 : UInt32).toNat⟩
  cur := 0xc009e000
  threads := [0xc0101000, 0xc009e000]

theorem firstSwitch_run : ∃ tr w, (switchSystem 0xc0001500).Run
    ((w, .compute firstSwitch.cpu) :: tr) firstSwitch ∧ lastEvent 0xc0101000 tr =
    some (.fresh 0xc0002000 7) := by
  let start : SwitchWorld := ⟨⟨0, 1, 2, 3, 4, 0xc009ef00, 0xc0001530, fun _ => 0⟩, 0xc009e000,
    [0xc009e000]⟩
  have hstart : (switchSystem 0xc0001500).Run [] start := .start ⟨rfl, by decide⟩
  have hnew : start.Admits (.create 0xc0101000 0xc0002000 7) := ⟨by simp [start], by decide⟩
  have hcreate : (switchSystem 0xc0001500).Step start (.create 0xc0101000 0xc0002000 7)
      (start.exec 0xc0001500 (.create 0xc0101000 0xc0002000 7)) := ⟨hnew, rfl⟩
  refine ⟨_, _, (hstart.next hcreate).next ⟨?_, rfl⟩, if_pos rfl⟩
  intro t ht hne a ha
  obtain rfl : t = 0xc0101000 := by
    rcases List.mem_cons.mp ht with rfl | ht
    · rfl
    · exact absurd (List.mem_singleton.mp ht) hne
  have hpage : (0xc0101000 : UInt32).toNat = 0xc0101000 := rfl
  unfold OwnStack at ha
  show store32 (store32 _ _ _) _ _ a = _
  rw [store32_apply_of_not (by omega), store32_apply_of_not (by omega)]
  rfl

theorem context_switch_first_run :
    (Parked.fresh 0xc0002000 7).Resumed 0xc0001500 0xc0101000
      (callSwitchTo firstSwitch.cpu 0xc0001540) := by
  obtain ⟨tr, w, run, hfresh⟩ := firstSwitch_run
  have hframe : CallFrame firstSwitch.cpu firstSwitch.cur 0xc0101000 :=
    ⟨by decide, by decide, by decide +kernel, by decide +kernel⟩
  obtain ⟨-, p, hp, hresumed⟩ := context_switch_preserves 0xc0001500 run 0xc0101000 0xc0001540
    ⟨⟨List.mem_cons_self, hframe⟩, rfl⟩
  obtain rfl : p = .fresh 0xc0002000 7 := Option.some.inj (hp.symm.trans hfresh)
  exact hresumed

end OriginOS.ContextSwitch
