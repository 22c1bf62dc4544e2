import Mathlib.Logic.Function.Basic
import OriginOS.Lib.Sectors

/-! A part of the 32-bit x86 processor with a flat byte memory: straight-line instructions, the
instruction `loop`, calls, and rules for what a loop does.

The arithmetic flags are not kept: a conditional jump is modelled together with the comparison that
is right before it. -/

namespace OriginOS.Lib.X86

inductive Reg where
  | eax | ecx | edx | ebx | esp | ebp | esi | edi
deriving DecidableEq, Repr

inductive Seg where
  | cs | ss | ds | es | fs | gs
deriving DecidableEq, Repr

/-- The registers and the memory. Processors differ in what the push of a selector leaves in the
upper half of the word: `zeroExtends` says that it is 0, and not what was there. -/
structure Cpu where
  reg : Reg → UInt32
  seg : Seg → UInt16
  eip : UInt32
  eflags : UInt32
  mem : Nat → UInt8
  zeroExtends : Bool

structure Addr where
  base : Option Reg
  index : Option Reg
  disp : UInt32
deriving DecidableEq, Repr

def Addr.eval (s : Cpu) (a : Addr) : UInt32 :=
  a.base.elim 0 s.reg + 4 * a.index.elim 0 s.reg + a.disp

inductive Operand where
  | reg (r : Reg)
  | imm (v : UInt32)
  | mem (a : Addr)
deriving DecidableEq, Repr

namespace Cpu

def set (s : Cpu) (r : Reg) (v : UInt32) : Cpu := { s with reg := Function.update s.reg r v }

def word (s : Cpu) (a : UInt32) : UInt32 := wordAt s.mem a.toNat

def setWord (s : Cpu) (a v : UInt32) : Cpu := { s with mem := store32 s.mem a.toNat v.toNat }

def read (s : Cpu) : Operand → UInt32
  | .reg r => s.reg r
  | .imm v => v
  | .mem a => s.word (a.eval s)

def write (s : Cpu) (v : UInt32) : Operand → Cpu
  | .reg r => s.set r v
  | .imm _ => s
  | .mem a => s.setWord (a.eval s) v

def push (s : Cpu) (v : UInt32) : Cpu :=
  (s.set .esp (s.reg .esp - 4)).setWord (s.reg .esp - 4) v

def top (s : Cpu) : UInt32 := s.word (s.reg .esp)

def drop (s : Cpu) (n : UInt32) : Cpu := s.set .esp (s.reg .esp + n)

/-- A byte is copied from `[esi]` to `[edi]`, and both go up. -/
def movsb (s : Cpu) : Cpu :=
  { s with
    reg := Function.update (Function.update s.reg .esi (s.reg .esi + 1)) .edi (s.reg .edi + 1)
    mem := Function.update s.mem (s.reg .edi).toNat (s.mem (s.reg .esi).toNat) }

end Cpu

def half (mem : Nat → UInt8) (a : Nat) : Nat := (mem a).toNat + 2 ^ 8 * (mem (a + 1)).toNat

inductive Instr where
  | mov (dst src : Operand)
  /-- `mov byte [dst], v` -/
  | movByte (dst : Addr) (v : UInt8)
  /-- `mov r16, [src]`, for the low half of `dst` -/
  | mov16 (dst : Reg) (src : Addr)
  | add (dst src : Operand)
  | sub (dst src : Operand)
  | or (dst src : Operand)
  | xor (dst src : Operand)
  | inc (r : Reg)
  | push (src : Operand)
  | pop (r : Reg)
  /-- `cld` and `rep movsb` -/
  | repMovsb
deriving DecidableEq, Repr

def Instr.exec (s : Cpu) : Instr → Cpu
  | mov dst src => s.write (s.read src) dst
  | movByte dst v => { s with mem := Function.update s.mem (dst.eval s).toNat v }
  | mov16 dst src =>
    s.set dst (s.reg dst &&& 0xffff0000 ||| UInt32.ofNat (half s.mem (src.eval s).toNat))
  | add dst src => s.write (s.read dst + s.read src) dst
  | sub dst src => s.write (s.read dst - s.read src) dst
  | or dst src => s.write (s.read dst ||| s.read src) dst
  | xor dst src => s.write (s.read dst ^^^ s.read src) dst
  | inc r => s.set r (s.reg r + 1)
  | push src => s.push (s.read src)
  | pop r => (s.drop 4).set r s.top
  | repMovsb => (Cpu.movsb^[(s.reg .ecx).toNat] s).set .ecx 0

def run (is : List Instr) (s : Cpu) : Cpu := is.foldl Instr.exec s

/-- `loop`: the body, and then again while `ecx`, counted down, is not 0. There is no result if this
takes more than `fuel` passes. -/
def loop (body : Cpu → Option Cpu) : Nat → Cpu → Option Cpu
  | 0, _ => none
  | fuel + 1, s => do
    let s ← body s
    let s := s.set .ecx (s.reg .ecx - 1)
    if s.reg .ecx ≠ 0 then loop body fuel s else some s

def passes (body : Cpu → Option Cpu) : Nat → Cpu → Option Cpu
  | 0, s => some s
  | n + 1, s => do
    let s ← passes body n s
    let s ← body s
    some (s.set .ecx (s.reg .ecx - 1))

/-- `call` with the return address `ret` and a function that ends with `ret`. There is no result if
the function returns to another place. -/
def call (ret : UInt32) (f : Cpu → Option Cpu) (s : Cpu) : Option Cpu := do
  let s ← f (s.push ret)
  if s.top = ret then some (s.drop 4) else none

/-! ### Registers and memory -/

section Lemmas

variable {s : Cpu} {r r' : Reg} {v w a : UInt32}

-- The equations are stated one by one, and not proved by rfl, so that simp rewrites with them and
-- no instruction is unfolded again when a proof is checked.

@[simp] theorem set_reg_self : (s.set r v).reg r = v := Function.update_self ..

theorem set_reg_of_ne (h : r' ≠ r) : (s.set r v).reg r' = s.reg r' := Function.update_of_ne h ..

@[simp] theorem set_mem : (s.set r v).mem = s.mem := by rw [Cpu.set]

@[simp] theorem set_word : (s.set r v).word a = s.word a := by rw [Cpu.word, Cpu.word, set_mem]

@[simp] theorem setWord_reg : (s.setWord a v).reg = s.reg := by rw [Cpu.setWord]

@[simp] theorem setWord_mem : (s.setWord a v).mem = store32 s.mem a.toNat v.toNat := by
  rw [Cpu.setWord]

@[simp] theorem eval_disp : (⟨none, none, v⟩ : Addr).eval s = v := by simp [Addr.eval]

@[simp] theorem eval_base : (⟨some r, none, v⟩ : Addr).eval s = s.reg r + v := by simp [Addr.eval]

@[simp] theorem eval_index : (⟨some r, some r', v⟩ : Addr).eval s = s.reg r + 4 * s.reg r' + v := by
  simp [Addr.eval]

@[simp] theorem read_reg : s.read (.reg r) = s.reg r := by rw [Cpu.read]

@[simp] theorem read_imm : s.read (.imm v) = v := by rw [Cpu.read]

@[simp] theorem read_mem (a : Addr) : s.read (.mem a) = s.word (a.eval s) := by rw [Cpu.read]

@[simp] theorem write_reg : s.write v (.reg r) = s.set r v := by rw [Cpu.write]

@[simp] theorem write_mem (a : Addr) : s.write v (.mem a) = s.setWord (a.eval s) v := by
  rw [Cpu.write]

@[simp] theorem exec_mov (dst src : Operand) :
    (Instr.mov dst src).exec s = s.write (s.read src) dst := by rw [Instr.exec]

@[simp] theorem exec_add (dst src : Operand) :
    (Instr.add dst src).exec s = s.write (s.read dst + s.read src) dst := by rw [Instr.exec]

@[simp] theorem exec_sub (dst src : Operand) :
    (Instr.sub dst src).exec s = s.write (s.read dst - s.read src) dst := by rw [Instr.exec]

@[simp] theorem exec_or (dst src : Operand) :
    (Instr.or dst src).exec s = s.write (s.read dst ||| s.read src) dst := by rw [Instr.exec]

@[simp] theorem exec_inc : (Instr.inc r).exec s = s.set r (s.reg r + 1) := by rw [Instr.exec]

@[simp] theorem exec_movByte_reg (dst : Addr) (b : UInt8) :
    ((Instr.movByte dst b).exec s).reg = s.reg := by rw [Instr.exec]

@[simp] theorem exec_movByte_mem (dst : Addr) (b : UInt8) :
    ((Instr.movByte dst b).exec s).mem = Function.update s.mem (dst.eval s).toNat b := by
  rw [Instr.exec]

@[simp] theorem exec_xor (dst src : Operand) :
    (Instr.xor dst src).exec s = s.write (s.read dst ^^^ s.read src) dst := by rw [Instr.exec]

@[simp] theorem exec_mov16 (src : Addr) : (Instr.mov16 r src).exec s =
    s.set r (s.reg r &&& 0xffff0000 ||| UInt32.ofNat (half s.mem (src.eval s).toNat)) := by
  rw [Instr.exec]

@[simp] theorem exec_push (src : Operand) : (Instr.push src).exec s = s.push (s.read src) := by
  rw [Instr.exec]

@[simp] theorem exec_pop : (Instr.pop r).exec s = (s.drop 4).set r s.top := by rw [Instr.exec]

@[simp] theorem exec_repMovsb : Instr.repMovsb.exec s =
    (Cpu.movsb^[(s.reg .ecx).toNat] s).set .ecx 0 := by
  rw [Instr.exec]

@[simp] theorem run_nil : run [] s = s := by rw [run, List.foldl_nil]

@[simp] theorem run_cons (i : Instr) (is : List Instr) : run (i :: is) s = run is (i.exec s) := by
  rw [run, run, List.foldl_cons]

end Lemmas

/-! ### Copying -/

def byteAddr (v : UInt32) (j : Nat) : Nat := (v + UInt32.ofNat j).toNat

/-- The memory after `n` bytes have been copied one by one. -/
def copyBytes (mem : Nat → UInt8) (dst src : UInt32) : Nat → Nat → UInt8
  | 0 => mem
  | n + 1 =>
    let m := copyBytes mem dst src n
    Function.update m (byteAddr dst n) (m (byteAddr src n))

section Copy

variable {mem mem' : Nat → UInt8} {dst src v : UInt32} {n k b : Nat} {p : Nat → Prop}

theorem movsb_iterate (s : Cpu) (n : Nat) :
    (Cpu.movsb^[n] s).mem = copyBytes s.mem (s.reg .edi) (s.reg .esi) n ∧
    (Cpu.movsb^[n] s).reg .edi = s.reg .edi + UInt32.ofNat n ∧
    (Cpu.movsb^[n] s).reg .esi = s.reg .esi + UInt32.ofNat n ∧
    ∀ r, r ≠ .esi → r ≠ .edi → (Cpu.movsb^[n] s).reg r = s.reg r := by
  induction n with
  | zero => exact ⟨rfl, (UInt32.add_zero _).symm, (UInt32.add_zero _).symm, fun _ _ _ => rfl⟩
  | succ n ih =>
    obtain ⟨hmem, hedi, hesi, hreg⟩ := ih
    have hadd : ∀ x : UInt32, x + UInt32.ofNat n + 1 = x + UInt32.ofNat (n + 1) := by
      intro x
      rw [UInt32.ofNat_add, UInt32.add_assoc]
      rfl
    rw [Function.iterate_succ_apply', Cpu.movsb]
    dsimp only
    refine ⟨?_, ?_, ?_, ?_⟩
    · rw [hmem, hedi, hesi]
      rfl
    · rw [Function.update_self, hedi, hadd]
    · rw [Function.update_of_ne (by decide), Function.update_self, hesi, hadd]
    · intro r hr hr'
      rw [Function.update_of_ne hr', Function.update_of_ne hr, hreg r hr hr']

theorem byteAddr_inj {j j' : Nat} (hj : j < 2 ^ 32) (hj' : j' < 2 ^ 32)
    (h : byteAddr v j = byteAddr v j') : j = j' := by
  have heq := UInt32.add_right_inj v |>.mp (UInt32.toNat_inj.mp h)
  have hnat := congrArg UInt32.toNat heq
  rwa [UInt32.toNat_ofNat_of_lt' hj, UInt32.toNat_ofNat_of_lt' hj'] at hnat

theorem copyBytes_of_not (h : ∀ j < n, b ≠ byteAddr dst j) : copyBytes mem dst src n b = mem b := by
  induction n with
  | zero => rfl
  | succ n ih =>
    rw [copyBytes]
    exact (Function.update_of_ne (h n (Nat.lt_succ_self n)) ..).trans
      (ih fun j hj => h j (Nat.lt_succ_of_lt hj))

theorem copyBytes_dst (hn : n ≤ 2 ^ 32) (hk : k < n) : copyBytes mem dst src n (byteAddr dst k) =
    copyBytes mem dst src k (byteAddr src k) := by
  induction n with
  | zero => cases hk
  | succ n ih =>
    rw [copyBytes]
    rcases Nat.lt_succ_iff_lt_or_eq.mp hk with hlt | rfl
    · rw [Function.update_of_ne fun h => ?_]
      · exact ih (by omega) hlt
      · exact Nat.ne_of_lt hlt (byteAddr_inj (by omega) (by omega) h)
    · exact Function.update_self ..

/-- Bytes are copied from a region, and those that go into the region are there already: then it
does not change. -/
theorem copyBytes_same (hn : n ≤ 2 ^ 32) (hsrc : ∀ j < n, p (byteAddr src j))
    (hsame : ∀ j < n, p (byteAddr dst j) → mem (byteAddr src j) = mem (byteAddr dst j)) :
    ∀ b, p b → copyBytes mem dst src n b = mem b := by
  induction n with
  | zero => exact fun _ _ => rfl
  | succ n ih =>
    have hih := ih (by omega) (fun j hj => hsrc j (by omega)) fun j hj => hsame j (by omega)
    intro b hb
    rw [copyBytes]
    by_cases heq : b = byteAddr dst n
    · rw [heq, Function.update_self, hih _ (hsrc n (by omega))]
      exact hsame n (by omega) (heq ▸ hb)
    · rw [Function.update_of_ne heq]
      exact hih b hb

theorem copyBytes_dst_of_same (hn : n ≤ 2 ^ 32) (hsrc : ∀ j < n, p (byteAddr src j))
    (hsame : ∀ j < n, p (byteAddr dst j) → mem (byteAddr src j) = mem (byteAddr dst j))
    (hk : k < n) : copyBytes mem dst src n (byteAddr dst k) = mem (byteAddr src k) := by
  rw [copyBytes_dst hn hk]
  exact copyBytes_same (n := k) (by omega) (fun j hj => hsrc j (by omega))
    (fun j hj => hsame j (by omega)) _ (hsrc k hk)

theorem same_of_copyBytes (hn : n ≤ 2 ^ 32) (hsrc : ∀ j < n, p (byteAddr src j))
    (h : ∀ b, p b → copyBytes mem dst src n b = mem b) :
    ∀ j < n, p (byteAddr dst j) → mem (byteAddr src j) = mem (byteAddr dst j) := by
  intro j
  induction j using Nat.strong_induction_on with
  | _ j ih =>
    intro hj hp
    have hbefore := copyBytes_same (n := j) (by omega) (fun i hi => hsrc i (by omega))
      fun i hi => ih i hi (by omega)
    rw [← h _ hp, copyBytes_dst hn hj, hbefore _ (hsrc j hj)]

theorem copyBytes_congr (hsrc : ∀ j < n, p (byteAddr src j)) (h : ∀ b, p b → mem' b = mem b) :
    ∀ b, p b → copyBytes mem' dst src n b = copyBytes mem dst src n b := by
  induction n with
  | zero => exact h
  | succ n ih =>
    have hih := ih fun j hj => hsrc j (by omega)
    intro b hb
    rw [copyBytes, copyBytes]
    by_cases heq : b = byteAddr dst n
    · rw [heq, Function.update_self, Function.update_self]
      exact hih _ (hsrc n (by omega))
    · rw [Function.update_of_ne heq, Function.update_of_ne heq]
      exact hih b hb

end Copy

/-! ### Loops -/

theorem loop_rule {body : Cpu → Option Cpu} {n fuel : Nat} {s : Cpu} (inv : Nat → Cpu → Prop)
    (hn : 0 < n) (hn' : n < 2 ^ 32) (hfuel : n ≤ fuel) (hecx : s.reg .ecx = UInt32.ofNat n)
    (hinv : inv 0 s)
    (hstep : ∀ k < n, ∀ s, inv k s → s.reg .ecx = UInt32.ofNat (n - k) →
      ∃ t, body s = some t ∧ t.reg .ecx = s.reg .ecx ∧ inv (k + 1) (t.set .ecx (t.reg .ecx - 1))) :
    ∃ t, loop body fuel s = some t ∧ inv n t := by
  -- the induction is on the passes to go, with the invariant shifted by the passes done
  suffices h : ∀ m k fuel s, k + m = n → 0 < m → m ≤ fuel → inv k s →
      s.reg .ecx = UInt32.ofNat m → ∃ t, loop body fuel s = some t ∧ inv n t by
    exact h n 0 fuel s (Nat.zero_add n) hn hfuel hinv hecx
  intro m
  induction m with
  | zero =>
    intro k fuel s _ hm
    exact absurd hm (Nat.lt_irrefl 0)
  | succ m ih =>
    intro k fuel s hk _ hfuel hinv hecx
    obtain ⟨fuel, rfl⟩ : ∃ f, fuel = f + 1 := ⟨fuel - 1, by omega⟩
    obtain ⟨t, hbody, hkeep, hnext⟩ := hstep k (by omega) s hinv (by rw [hecx]; congr 1; omega)
    have hcount : (t.set .ecx (t.reg .ecx - 1)).reg .ecx = UInt32.ofNat m := by
      rw [set_reg_self, hkeep, hecx, UInt32.ofNat_add]
      simp
    rw [loop, hbody, Option.bind_eq_bind, Option.bind_some]
    dsimp only
    rw [hcount]
    rcases Nat.eq_zero_or_pos m with rfl | hm
    · rw [if_neg (by decide)]
      exact ⟨_, rfl, by rwa [← hk]⟩
    · have hlt : m < 2 ^ 32 := by omega
      have hne : UInt32.ofNat m ≠ 0 := by
        intro h
        have hzero := congrArg UInt32.toNat h
        rw [UInt32.toNat_ofNat_of_lt' hlt, UInt32.toNat_zero] at hzero
        exact Nat.ne_of_gt hm hzero
      rw [if_pos hne]
      exact ih (k + 1) fuel _ (by omega) hm (by omega) hnext hcount

end OriginOS.Lib.X86
