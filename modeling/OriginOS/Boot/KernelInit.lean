import OriginOS.Lib.X86Stack

/-! `kernel_init` of `boot/loader_func.S`, which copies the segments of the kernel's ELF image to
where they run, and `mem_cpy`. Paging is on by then. The memory is flat here: addresses that are
mapped to the same frame are taken for different bytes. -/

namespace OriginOS.Boot

open Lib Lib.X86

def kernelBinBaseAddr : UInt32 := 0x70000

def ptNull : UInt8 := 0

/-- `mem_cpy` up to its `ret`: the arguments are the destination, the source and the size. -/
def memCpy : List Instr := [
  .push (.reg .ebp),
  .mov (.reg .ebp) (.reg .esp),
  .push (.reg .ecx),
  .mov (.reg .edi) (.mem ⟨some .ebp, none, 8⟩),
  .mov (.reg .esi) (.mem ⟨some .ebp, none, 12⟩),
  .mov (.reg .ecx) (.mem ⟨some .ebp, none, 16⟩),
  .repMovsb,
  .pop .ecx,
  .pop .ebp]

/-- The arguments for the program header at `ebx`: `p_filesz`, the place of `p_offset` in the image
and `p_vaddr`. -/
def pushArguments : List Instr := [
  .push (.mem ⟨some .ebx, none, 16⟩),
  .mov (.reg .eax) (.mem ⟨some .ebx, none, 4⟩),
  .add (.reg .eax) (.imm kernelBinBaseAddr),
  .push (.reg .eax),
  .push (.mem ⟨some .ebx, none, 8⟩)]

/-- `.each_segment`, with `ret` for the address after the call. -/
def eachSegment (ret : UInt32) (s : Cpu) : Option Cpu := do
  let s ← if s.mem (Addr.eval s ⟨some .ebx, none, 0⟩).toNat = ptNull then some s else do
    let s ← call ret (fun s => some (run memCpy s)) (run pushArguments s)
    some (run [.add (.reg .esp) (.imm 12)] s)
  some (run [.add (.reg .ebx) (.reg .edx)] s)

def readHeader : List Instr := [
  .xor (.reg .edx) (.reg .edx),
  .xor (.reg .ecx) (.reg .ecx),
  .mov16 .edx ⟨none, none, kernelBinBaseAddr + 42⟩,
  .mov (.reg .ebx) (.mem ⟨none, none, kernelBinBaseAddr + 28⟩),
  .add (.reg .ebx) (.imm kernelBinBaseAddr),
  .mov16 .ecx ⟨none, none, kernelBinBaseAddr + 44⟩]

def kernelInit (ret : UInt32) (fuel : Nat) (s : Cpu) : Option Cpu := do
  let s ← loop (eachSegment ret) fuel (run readHeader s)
  some (run [.mov (.reg .eax) (.mem ⟨none, none, kernelBinBaseAddr + 0x18⟩)] s)

/-! ### The image -/

section Image

variable (mem : Nat → UInt8)

def ePhoff : UInt32 := wordAt mem (0x70000 + 28)

def ePhentsize : Nat := half mem (0x70000 + 42)

def ePhnum : Nat := half mem (0x70000 + 44)

def eEntry : UInt32 := wordAt mem (0x70000 + 0x18)

structure Phdr where
  type : UInt32
  offset : UInt32
  vaddr : UInt32
  filesz : UInt32
  memsz : UInt32
deriving DecidableEq, Repr

def phdrAddr (n : Nat) : Nat := 0x70000 + (ePhoff mem).toNat + n * ePhentsize mem

def phdr (n : Nat) : Phdr where
  type := wordAt mem (phdrAddr mem n)
  offset := wordAt mem (phdrAddr mem n + 4)
  vaddr := wordAt mem (phdrAddr mem n + 8)
  filesz := wordAt mem (phdrAddr mem n + 16)
  memsz := wordAt mem (phdrAddr mem n + 20)

/-- The loader looks at the lowest byte of `p_type`. -/
def Copied (n : Nat) : Prop := mem (phdrAddr mem n) ≠ ptNull

def IsLoad (n : Nat) : Prop := n < ePhnum mem ∧ (phdr mem n).type = 1

def InLoad (b : Nat) : Prop :=
  ∃ n, IsLoad mem n ∧ ∃ j < (phdr mem n).memsz.toNat, b = byteAddr (phdr mem n).vaddr j

def fileByte (n j : Nat) : UInt8 := mem (0x70000 + (phdr mem n).offset.toNat + j)

end Image

/-- Byte `b` is of the image, which has `size` bytes. -/
def InImage (size b : Nat) : Prop := 0x70000 ≤ b ∧ b < 0x70000 + size

/-- Byte `b` is of the 24 bytes of stack that `kernel_init` uses. -/
def InStack (esp b : Nat) : Prop := esp - 24 ≤ b ∧ b < esp

/-- A 32-bit ELF image, whose `PT_LOAD` segments overlap neither each other nor the image, and a
stack with room that overlaps neither the image nor what is copied to. -/
structure Image (size : Nat) (s : Cpu) : Prop where
  fits : 0x70000 + size ≤ 2 ^ 32
  ehdr : 52 ≤ size
  phnum : 0 < ePhnum s.mem
  phdrs : ∀ n < ePhnum s.mem, phdrAddr s.mem n + 32 ≤ 0x70000 + size
  files : ∀ n < ePhnum s.mem, Copied s.mem n → ∀ j < (phdr s.mem n).filesz.toNat,
    (phdr s.mem n).offset.toNat + j < size
  sizes : ∀ n, IsLoad s.mem n → (phdr s.mem n).filesz ≤ (phdr s.mem n).memsz
  loads : ∀ n n', IsLoad s.mem n → IsLoad s.mem n' → n ≠ n' →
    ∀ j < (phdr s.mem n).memsz.toNat, ∀ j' < (phdr s.mem n').memsz.toNat,
      byteAddr (phdr s.mem n).vaddr j ≠ byteAddr (phdr s.mem n').vaddr j'
  apart : ∀ b, InLoad s.mem b → ¬InImage size b
  room : 24 ≤ (s.reg .esp).toNat
  stack : ∀ b, InStack (s.reg .esp).toNat b → ¬InImage size b ∧ ¬InLoad s.mem b
  stack_copied : ∀ n < ePhnum s.mem, Copied s.mem n → ∀ j < (phdr s.mem n).filesz.toNat,
    ¬InStack (s.reg .esp).toNat (byteAddr (phdr s.mem n).vaddr j)

/-- The segments are in place, and outside of them and of the stack no pass of the loop has changed
a byte. -/
structure KernelLoaded (ret : UInt32) (s : Cpu) : Prop where
  loaded : ∃ fuel₀, ∀ fuel ≥ fuel₀, ∃ t, kernelInit ret fuel s = some t ∧
    t.reg .eax = eEntry s.mem ∧ ∀ n, IsLoad s.mem n → ∀ j < (phdr s.mem n).memsz.toNat,
      t.mem (byteAddr (phdr s.mem n).vaddr j) =
        if j < (phdr s.mem n).filesz.toNat then fileByte s.mem n j else 0
  kept : ∀ n ≤ ePhnum s.mem, ∃ t, passes (eachSegment ret) n (run readHeader s) = some t ∧
    ∀ b, ¬InLoad s.mem b → ¬InStack (s.reg .esp).toNat b → t.mem b = s.mem b

/-! ### The condition -/

section Condition

variable (mem : Nat → UInt8)

/-- Header `n` is copied, and brings the byte `v` to `b`. -/
def Brings (n b : Nat) (v : UInt8) : Prop :=
  Copied mem n ∧ ∃ j < (phdr mem n).filesz.toNat,
    b = byteAddr (phdr mem n).vaddr j ∧ v = fileByte mem n j

/-- The last of the first `n` headers that brings a byte to `b` brings `v`, or none does and `b`
holds `v`. -/
def Ends (n b : Nat) (v : UInt8) : Prop :=
  (∃ k < n, Brings mem k b v ∧ ∀ k', k < k' → k' < n → ∀ v', ¬Brings mem k' b v') ∨
  (mem b = v ∧ ∀ k < n, ∀ v', ¬Brings mem k b v')

/-- What header `n` brings outside of the `PT_LOAD` segments is there already. -/
def NothingNew (n : Nat) : Prop := ∀ b v, Brings mem n b v → ¬InLoad mem b → v = mem b

/-- The headers bring nothing new outside of the `PT_LOAD` segments, and in a segment a byte of the
file is brought last, and 0 behind them. -/
structure Loadable : Prop where
  outside : ∀ n < ePhnum mem, NothingNew mem n
  file : ∀ n, IsLoad mem n → ∀ j < (phdr mem n).filesz.toNat,
    Ends mem (ePhnum mem) (byteAddr (phdr mem n).vaddr j) (fileByte mem n j)
  bss : ∀ n, IsLoad mem n → ∀ j < (phdr mem n).memsz.toNat, (phdr mem n).filesz.toNat ≤ j →
    Ends mem (ePhnum mem) (byteAddr (phdr mem n).vaddr j) 0

variable {mem} {n b : Nat} {v v' : UInt8}

theorem Brings.unique (h : Brings mem n b v) (h' : Brings mem n b v') : v = v' := by
  obtain ⟨-, j, hj, hb, rfl⟩ := h
  obtain ⟨-, j', hj', hb', rfl⟩ := h'
  have hlt := (phdr mem n).filesz.toNat_lt
  rw [byteAddr_inj (by omega) (by omega) (hb.symm.trans hb')]

theorem Ends.unique (h : Ends mem n b v) (h' : Ends mem n b v') : v = v' := by
  rcases h with ⟨k, hk, hb, hlast⟩ | ⟨rfl, hnone⟩ <;>
    rcases h' with ⟨k', hk', hb', hlast'⟩ | ⟨rfl, hnone'⟩
  · rcases Nat.lt_trichotomy k k' with hlt | rfl | hlt
    · exact absurd hb' (hlast k' hlt hk' v')
    · exact hb.unique hb'
    · exact absurd hb (hlast' k hlt hk v)
  · exact absurd hb (hnone' k hk v)
  · exact absurd hb' (hnone k' hk' v')
  · rfl

theorem Ends.zero (mem : Nat → UInt8) (b : Nat) : Ends mem 0 b (mem b) :=
  .inr ⟨rfl, fun _ hk => absurd hk (Nat.not_lt_zero _)⟩

theorem Brings.ends (h : Brings mem n b v) : Ends mem (n + 1) b v :=
  .inl ⟨n, Nat.lt_succ_self n, h, fun _ hk hk' => absurd hk (by omega)⟩

theorem Ends.skip (h : Ends mem n b v) (hn : ∀ v', ¬Brings mem n b v') : Ends mem (n + 1) b v := by
  have hnext : ∀ k < n + 1, (k < n → ∀ v', ¬Brings mem k b v') → ∀ v', ¬Brings mem k b v' := by
    intro k hk hbefore
    rcases Nat.lt_succ_iff_lt_or_eq.mp hk with hlt | rfl
    · exact hbefore hlt
    · exact hn
  rcases h with ⟨k, hk, hb, hlast⟩ | ⟨hmem, hnone⟩
  · exact .inl ⟨k, Nat.lt_succ_of_lt hk, hb, fun k' hk' hlt => hnext k' hlt (hlast k' hk')⟩
  · exact .inr ⟨hmem, fun k hk => hnext k hk (hnone k)⟩

end Condition

/-! ### One pass -/

section Pass

variable {m : Nat → UInt8} {base : Nat} {ret dst src len : UInt32} {s t : Cpu}

theorem memCpy_enter (h : Stack m base [ret, dst, src, len] s) (hroom : 24 ≤ base) :
    ∃ t, run memCpy s = run [.repMovsb, .pop .ecx, .pop .ebp] t ∧
      Stack m base [s.reg .ecx, s.reg .ebp, ret, dst, src, len] t ∧ t.reg .edi = dst ∧
      t.reg .esi = src ∧ t.reg .ecx = len ∧ t.reg .ebx = s.reg .ebx ∧ t.reg .edx = s.reg .edx := by
  have hebp := h.push (by simp; omega) (s.reg .ebp)
  have hset := hebp.set .ebp (by decide) ((s.push (s.reg .ebp)).reg .esp)
  have hecx := hset.push (by simp; omega) (s.reg .ecx)
  generalize hu : ((s.push (s.reg .ebp)).set .ebp ((s.push (s.reg .ebp)).reg .esp)).push
    (s.reg .ecx) = u at hecx
  have hframe : u.reg .ebp = u.reg .esp + 4 := by
    rw [← hu, push_reg (by decide), set_reg_self, push_esp (s := Cpu.set ..),
      set_reg_of_ne (by decide), UInt32.sub_add_cancel]
  have harg : ∀ i w, [s.reg .ebp, ret, dst, src, len][i]? = some w →
      u.word (u.reg .ebp + UInt32.ofNat (4 * i)) = w := by
    intro i w hi
    rw [← @Stack.word _ _ _ _ _ (i + 1) hecx hi, hframe, Nat.mul_add, UInt32.ofNat_add,
      UInt32.add_comm (UInt32.ofNat _), ← UInt32.add_assoc]
    rfl
  have hdst : u.word (u.reg .ebp + 8) = dst := harg 2 dst rfl
  have hsrc : u.word (u.reg .ebp + 12) = src := harg 3 src rfl
  have hlen : u.word (u.reg .ebp + 16) = len := harg 4 len rfl
  refine ⟨((u.set .edi dst).set .esi src).set .ecx len, ?_, ?_, ?_, ?_, ?_, ?_, ?_⟩
  · simp (disch := decide) only [memCpy, run_cons, exec_push, exec_mov, read_reg, read_mem,
      write_reg, eval_base, set_word, set_reg_of_ne, push_reg, hu, hdst, hsrc, hlen]
  · exact ((hecx.set .edi (by decide) _).set .esi (by decide) _).set .ecx (by decide) _
  · simp [set_reg_of_ne]
  · simp [set_reg_of_ne]
  · simp
  · simp [set_reg_of_ne, ← hu, push_reg]
  · simp [set_reg_of_ne, ← hu, push_reg]

theorem memCpy_run (h : Stack m base [ret, dst, src, len] s) (hroom : 24 ≤ base)
    (hdst : ∀ j < len.toNat, ¬InStack base (byteAddr dst j))
    (hsrc : ∀ j < len.toNat, ¬InStack base (byteAddr src j)) :
    ∃ t, run memCpy s = t ∧ Stack t.mem base [ret, dst, src, len] t ∧
      t.reg .ebx = s.reg .ebx ∧ t.reg .edx = s.reg .edx ∧ t.reg .ecx = s.reg .ecx ∧
      ∀ b, ¬InStack base b → t.mem b = copyBytes m dst src len.toNat b := by
  obtain ⟨u, hrun, hstack, hedi, hesi, hecx, hebx, hedx⟩ := memCpy_enter h hroom
  obtain ⟨hmem, -, -, hreg⟩ := movsb_iterate u len.toNat
  generalize hv : Cpu.movsb^[len.toNat] u = v at hmem hreg
  rw [hedi, hesi] at hmem
  have hbase : (u.reg .esp).toNat + 24 = base := hstack.esp
  have hcopied := hstack.agree (hreg .esp (by decide) (by decide)) fun b hb hb' => by
    rw [hmem]
    refine copyBytes_of_not fun j hj heq => hdst j hj ?_
    rw [← heq]
    exact ⟨by omega, hb'⟩
  have hzero := hcopied.set .ecx (by decide) 0
  have hpop := hzero.pop .ecx (by decide)
  refine ⟨((v.set .ecx 0).pop .ecx).pop .ebp, ?_, hpop.pop .ebp (by decide), ?_, ?_, ?_, ?_⟩
  · rw [hrun, run_cons, exec_repMovsb, hecx, hv, run_cons, exec_pop, run_cons, exec_pop, run_nil]
    rfl
  · rw [pop_reg (by decide) (by decide), pop_reg (by decide) (by decide),
      set_reg_of_ne (by decide), hreg .ebx (by decide) (by decide), hebx]
  · rw [pop_reg (by decide) (by decide), pop_reg (by decide) (by decide),
      set_reg_of_ne (by decide), hreg .edx (by decide) (by decide), hedx]
  · rw [pop_reg (by decide) (by decide), hzero.pop_self]
  · intro b hb
    have hmem' : (((v.set .ecx 0).pop .ecx).pop .ebp).mem = v.mem := by simp [Cpu.pop, Cpu.drop]
    rw [hmem', hmem]
    refine copyBytes_congr (p := fun b => ¬InStack base b) hsrc (fun b hb => ?_) b hb
    unfold InStack at hb
    exact hstack.kept b (by omega)

variable (ret) in
theorem memCpy_call (h : Stack m base [dst, src, len] s) (hroom : 24 ≤ base)
    (hdst : ∀ j < len.toNat, ¬InStack base (byteAddr dst j))
    (hsrc : ∀ j < len.toNat, ¬InStack base (byteAddr src j)) :
    ∃ t, call ret (fun s => some (run memCpy s)) s = some t ∧ (t.reg .esp).toNat + 12 = base ∧
      t.reg .ebx = s.reg .ebx ∧ t.reg .edx = s.reg .edx ∧ t.reg .ecx = s.reg .ecx ∧
      ∀ b, ¬InStack base b → t.mem b = copyBytes m dst src len.toNat b := by
  obtain ⟨t, hrun, hstack, hebx, hedx, hecx, hmem⟩ :=
    memCpy_run (h.push (by simp; omega) ret) hroom hdst hsrc
  refine ⟨t.drop 4, ?_, hstack.drop.esp, ?_, ?_, ?_, ?_⟩
  · rw [call, hrun, Option.bind_eq_bind, Option.bind_some, if_pos hstack.top]
  · rw [drop_reg (by decide), hebx, push_reg (by decide)]
  · rw [drop_reg (by decide), hedx, push_reg (by decide)]
  · rw [drop_reg (by decide), hecx, push_reg (by decide)]
  · intro b hb
    rw [Cpu.drop, set_mem]
    exact hmem b hb

structure AtPass (s : Cpu) (n : Nat) (u : Cpu) : Prop where
  ebx : u.reg .ebx = UInt32.ofNat (phdrAddr s.mem n)
  edx : u.reg .edx = UInt32.ofNat (ePhentsize s.mem)
  esp : u.reg .esp = s.reg .esp

variable {size n : Nat} {u v : Cpu} {ws : List UInt32}

theorem phdrAddr_ge (mem : Nat → UInt8) (n : Nat) : 0x70000 ≤ phdrAddr mem n :=
  Nat.le_add_right_of_le (Nat.le_add_right ..)

theorem phdr_word (h : Image size s) (hn : n < ePhnum s.mem)
    (himage : ∀ b, InImage size b → u.mem b = s.mem b)
    (hstack : Stack u.mem (s.reg .esp).toNat ws v) (hws : ws.length ≤ 6) (off : Nat)
    (hoff : off + 4 ≤ 32) : v.word (UInt32.ofNat (phdrAddr s.mem n) + UInt32.ofNat off) =
      wordAt s.mem (phdrAddr s.mem n + off) := by
  have hfits := h.fits
  have hphdr := h.phdrs n hn
  have hlow := phdrAddr_ge s.mem n
  have hlt : phdrAddr s.mem n + off < 2 ^ 32 := by omega
  rw [Cpu.word, ← UInt32.ofNat_add, UInt32.toNat_ofNat_of_lt' hlt]
  refine wordAt_congr fun b hb hb' => ?_
  have hin : InImage size b := ⟨by omega, by omega⟩
  have hout : ¬InStack (s.reg .esp).toNat b := fun hs => (h.stack b hs).1 hin
  have hesp := hstack.esp
  unfold InStack at hout
  rw [hstack.kept b (by omega), himage b hin]

theorem pushArguments_run (h : Image size s) (hn : n < ePhnum s.mem) (hat : AtPass s n u)
    (himage : ∀ b, InImage size b → u.mem b = s.mem b) :
    ∃ t, run pushArguments u = t ∧ Stack u.mem (s.reg .esp).toNat [(phdr s.mem n).vaddr,
        (phdr s.mem n).offset + kernelBinBaseAddr, (phdr s.mem n).filesz] t ∧
      t.reg .ebx = u.reg .ebx ∧ t.reg .edx = u.reg .edx ∧ t.reg .ecx = u.reg .ecx := by
  have hroom := h.room
  have hnil : Stack u.mem (s.reg .esp).toNat [] u := hat.esp ▸ Stack.nil u
  have hfilesz : u.word (u.reg .ebx + 16) = (phdr s.mem n).filesz := by
    rw [hat.ebx]
    exact phdr_word h hn himage hnil (by simp) 16 (by decide)
  have h₁ := hnil.push (by simp; omega) (phdr s.mem n).filesz
  generalize hu₁ : u.push (phdr s.mem n).filesz = u₁ at h₁
  have hreg₁ : ∀ r, r ≠ .esp → u₁.reg r = u.reg r := fun r hr => by rw [← hu₁, push_reg hr]
  have hoffset : u₁.word (u₁.reg .ebx + 4) = (phdr s.mem n).offset := by
    rw [hreg₁ .ebx (by decide), hat.ebx]
    exact phdr_word h hn himage h₁ (by simp) 4 (by decide)
  have h₂ := ((h₁.set .eax (by decide) (phdr s.mem n).offset).set .eax (by decide)
    ((phdr s.mem n).offset + kernelBinBaseAddr)).push (by simp; omega)
    ((phdr s.mem n).offset + kernelBinBaseAddr)
  generalize hu₂ : ((u₁.set .eax (phdr s.mem n).offset).set .eax
    ((phdr s.mem n).offset + kernelBinBaseAddr)).push
    ((phdr s.mem n).offset + kernelBinBaseAddr) = u₂ at h₂
  have hreg₂ : ∀ r, r ≠ .esp → r ≠ .eax → u₂.reg r = u.reg r := by
    intro r hr hr'
    rw [← hu₂, push_reg hr, set_reg_of_ne hr', set_reg_of_ne hr', hreg₁ r hr]
  have hvaddr : u₂.word (u₂.reg .ebx + 8) = (phdr s.mem n).vaddr := by
    rw [hreg₂ .ebx (by decide) (by decide), hat.ebx]
    exact phdr_word h hn himage h₂ (by simp) 8 (by decide)
  refine ⟨u₂.push (phdr s.mem n).vaddr, ?_, h₂.push (by simp; omega) _, ?_, ?_, ?_⟩
  · simp only [pushArguments, run_cons, run_nil, exec_push, exec_mov, exec_add, read_mem, read_reg,
      read_imm, write_reg, eval_base, set_reg_self, hfilesz, hu₁, hoffset, hu₂, hvaddr]
  · rw [push_reg (by decide), hreg₂ .ebx (by decide) (by decide)]
  · rw [push_reg (by decide), hreg₂ .edx (by decide) (by decide)]
  · rw [push_reg (by decide), hreg₂ .ecx (by decide) (by decide)]

theorem source_addr {j : Nat} (h : Image size s) (hn : n < ePhnum s.mem) (hc : Copied s.mem n)
    (hj : j < (phdr s.mem n).filesz.toNat) :
    byteAddr ((phdr s.mem n).offset + kernelBinBaseAddr) j =
      0x70000 + (phdr s.mem n).offset.toNat + j := by
  have hfits := h.fits
  have hfile := h.files n hn hc j hj
  have hj' : j < 2 ^ 32 := Nat.lt_trans hj (UInt32.toNat_lt _)
  have hbase : kernelBinBaseAddr.toNat = 0x70000 := by decide
  rw [byteAddr, UInt32.toNat_add, UInt32.toNat_add, UInt32.toNat_ofNat_of_lt' hj', hbase]
  omega

theorem source_inImage {j : Nat} (h : Image size s) (hn : n < ePhnum s.mem) (hc : Copied s.mem n)
    (hj : j < (phdr s.mem n).filesz.toNat) :
    InImage size (byteAddr ((phdr s.mem n).offset + kernelBinBaseAddr) j) := by
  have hfile := h.files n hn hc j hj
  rw [source_addr h hn hc hj]
  exact ⟨by omega, by omega⟩

theorem atPass_next (hat : AtPass s n u) (hebx : t.reg .ebx = u.reg .ebx)
    (hedx : t.reg .edx = u.reg .edx) (hesp : t.reg .esp = u.reg .esp) :
    AtPass s (n + 1) (run [.add (.reg .ebx) (.reg .edx)] t) := by
  simp only [run_cons, run_nil, exec_add, read_reg, write_reg]
  refine ⟨?_, ?_, ?_⟩
  · rw [set_reg_self, hebx, hedx, hat.ebx, hat.edx, ← UInt32.ofNat_add, phdrAddr, phdrAddr,
      Nat.succ_mul, Nat.add_assoc _ (n * _)]
  · rw [set_reg_of_ne (by decide), hedx, hat.edx]
  · rw [set_reg_of_ne (by decide), hesp, hat.esp]

/-- What a pass does to the memory: a segment is copied, or nothing. -/
structure Passed (s : Cpu) (n : Nat) (u t : Cpu) : Prop where
  skip : ¬Copied s.mem n → t.mem = u.mem
  copy : Copied s.mem n → ∀ b, ¬InStack (s.reg .esp).toNat b → t.mem b =
    copyBytes u.mem (phdr s.mem n).vaddr ((phdr s.mem n).offset + kernelBinBaseAddr)
      (phdr s.mem n).filesz.toNat b

theorem eachSegment_run (h : Image size s) (hn : n < ePhnum s.mem) (hat : AtPass s n u)
    (himage : ∀ b, InImage size b → u.mem b = s.mem b) (ret : UInt32) :
    ∃ t, eachSegment ret u = some t ∧ t.reg .ecx = u.reg .ecx ∧ AtPass s (n + 1) t ∧
      Passed s n u t := by
  have htype : u.mem (Addr.eval u ⟨some .ebx, none, 0⟩).toNat = s.mem (phdrAddr s.mem n) := by
    have hfits := h.fits
    have hphdr := h.phdrs n hn
    have hlow := phdrAddr_ge s.mem n
    have hlt : phdrAddr s.mem n < 2 ^ 32 := by omega
    rw [eval_base, UInt32.add_zero, hat.ebx, UInt32.toNat_ofNat_of_lt' hlt]
    exact himage _ ⟨hlow, by omega⟩
  rw [eachSegment, htype]
  by_cases hc : Copied s.mem n
  · obtain ⟨v, hargs, hstack, hebx, hedx, hecx⟩ := pushArguments_run h hn hat himage
    obtain ⟨t, hcall, hesp, hebx', hedx', hecx', hmem⟩ := memCpy_call ret hstack h.room
      (h.stack_copied n hn hc)
      fun j hj hs => (h.stack _ hs).1 (source_inImage h hn hc hj)
    have hesp' : t.reg .esp + 12 = s.reg .esp := by
      have hbound := (s.reg .esp).toNat_lt
      have hadd : (t.reg .esp + 12).toNat = (t.reg .esp).toNat + 12 := by
        rw [UInt32.toNat_add]
        exact Nat.mod_eq_of_lt (by simp; omega)
      exact UInt32.toNat_inj.mp (hadd.trans hesp)
    rw [if_neg hc, hargs, hcall]
    refine ⟨run [.add (.reg .ebx) (.reg .edx)] (run [.add (.reg .esp) (.imm 12)] t), rfl, ?_,
      atPass_next hat ?_ ?_ ?_, fun hc' => absurd hc hc', fun _ b hb => ?_⟩
    · simp [set_reg_of_ne, hecx', hecx]
    · simp [set_reg_of_ne, hebx', hebx]
    · simp [set_reg_of_ne, hedx', hedx]
    · simp [hesp', hat.esp]
    · simp [hmem b hb]
  · rw [if_pos (Decidable.not_not.mp hc)]
    refine ⟨_, rfl, ?_, atPass_next hat rfl rfl rfl, fun _ => ?_, fun hc' => absurd hc' hc⟩
    · simp [set_reg_of_ne]
    · simp

end Pass

/-! ### The whole loop -/

section Run

variable {size n : Nat} {ret : UInt32} {s t u : Cpu}

/-- Before pass `n` every byte is as the headers before have left it, and outside of the segments
nothing has changed. -/
structure Reached (s : Cpu) (n : Nat) (u : Cpu) : Prop where
  at_pass : AtPass s n u
  ends : ∀ b, ¬InStack (s.reg .esp).toNat b → Ends s.mem n b (u.mem b)
  kept : ∀ b, ¬InLoad s.mem b → ¬InStack (s.reg .esp).toNat b → u.mem b = s.mem b

theorem Reached.image (hr : Reached s n u) (h : Image size s) :
    ∀ b, InImage size b → u.mem b = s.mem b :=
  fun b hb => hr.kept b (fun hl => h.apart b hl hb) fun hs => (h.stack b hs).1 hb

/-- Header `n` brings to the image only what is there. -/
def ImageKept (size : Nat) (s : Cpu) (n : Nat) : Prop :=
  ∀ j < (phdr s.mem n).filesz.toNat, InImage size (byteAddr (phdr s.mem n).vaddr j) →
    fileByte s.mem n j = s.mem (byteAddr (phdr s.mem n).vaddr j)

theorem Reached.source {j : Nat} (hr : Reached s n u) (h : Image size s) (hn : n < ePhnum s.mem)
    (hc : Copied s.mem n) (hj : j < (phdr s.mem n).filesz.toNat) :
    u.mem (byteAddr ((phdr s.mem n).offset + kernelBinBaseAddr) j) = fileByte s.mem n j := by
  rw [hr.image h _ (source_inImage h hn hc hj), source_addr h hn hc hj]
  rfl

theorem Reached.copied_byte {j : Nat} (hr : Reached s n u) (h : Image size s)
    (hn : n < ePhnum s.mem) (hc : Copied s.mem n) (hkept : ImageKept size s n)
    (hj : j < (phdr s.mem n).filesz.toNat) :
    copyBytes u.mem (phdr s.mem n).vaddr ((phdr s.mem n).offset + kernelBinBaseAddr)
      (phdr s.mem n).filesz.toNat (byteAddr (phdr s.mem n).vaddr j) = fileByte s.mem n j := by
  rw [← hr.source h hn hc hj]
  refine copyBytes_dst_of_same (p := InImage size) (UInt32.toNat_lt _).le
    (fun j hj => source_inImage h hn hc hj) (fun j hj hin => ?_) hj
  rw [hr.source h hn hc hj, hr.image h _ hin]
  exact hkept j hj hin

theorem Reached.imageKept (hr : Reached s n u) (h : Image size s) (hn : n < ePhnum s.mem)
    (hc : Copied s.mem n) (hsame : ∀ b, InImage size b →
      copyBytes u.mem (phdr s.mem n).vaddr ((phdr s.mem n).offset + kernelBinBaseAddr)
        (phdr s.mem n).filesz.toNat b = s.mem b) : ImageKept size s n := by
  intro j hj hin
  rw [← hr.source h hn hc hj, ← hr.image h _ hin]
  refine same_of_copyBytes (p := InImage size) (UInt32.toNat_lt _).le
    (fun j hj => source_inImage h hn hc hj) (fun b hb => ?_) j hj hin
  rw [hsame b hb, hr.image h b hb]

theorem Reached.bytes (hr : Reached s n u) (h : Image size s) (hn : n < ePhnum s.mem)
    (hp : Passed s n u t) (hkept : Copied s.mem n → ImageKept size s n) {b : Nat}
    (hb : ¬InStack (s.reg .esp).toNat b) :
    Brings s.mem n b (t.mem b) ∨ (∀ v, ¬Brings s.mem n b v) ∧ t.mem b = u.mem b := by
  by_cases hc : Copied s.mem n
  · rw [hp.copy hc b hb]
    by_cases hex : ∃ j < (phdr s.mem n).filesz.toNat, b = byteAddr (phdr s.mem n).vaddr j
    · obtain ⟨j, hj, rfl⟩ := hex
      exact .inl ⟨hc, j, hj, rfl, hr.copied_byte h hn hc (hkept hc) hj⟩
    · refine .inr ⟨fun v hv => ?_, copyBytes_of_not fun j hj heq => hex ⟨j, hj, heq⟩⟩
      obtain ⟨-, j, hj, heq, -⟩ := hv
      exact hex ⟨j, hj, heq⟩
  · exact .inr ⟨fun v hv => hc hv.1, congrFun (hp.skip hc) b⟩

theorem Reached.step (hr : Reached s n u) (h : Image size s) (hn : n < ePhnum s.mem)
    (hnew : NothingNew s.mem n) (ret : UInt32) : ∃ t, eachSegment ret u = some t ∧
      t.reg .ecx = u.reg .ecx ∧ Reached s (n + 1) (t.set .ecx (t.reg .ecx - 1)) := by
  obtain ⟨t, hrun, hecx, hat, hp⟩ := eachSegment_run h hn hr.at_pass (hr.image h) ret
  have hkept : Copied s.mem n → ImageKept size s n := fun hc j hj hin =>
    hnew _ _ ⟨hc, j, hj, rfl, rfl⟩ fun hl => h.apart _ hl hin
  refine ⟨t, hrun, hecx, ?_, ?_, ?_⟩
  · exact ⟨(set_reg_of_ne (by decide)).trans hat.ebx, (set_reg_of_ne (by decide)).trans hat.edx,
      (set_reg_of_ne (by decide)).trans hat.esp⟩
  · intro b hb
    rw [set_mem]
    rcases hr.bytes h hn hp hkept hb with hbrings | ⟨hnone, heq⟩
    · exact hbrings.ends
    · rw [heq]
      exact (hr.ends b hb).skip hnone
  · intro b hl hb
    rw [set_mem]
    rcases hr.bytes h hn hp hkept hb with hbrings | ⟨-, heq⟩
    · exact hnew b _ hbrings hl
    · rw [heq, hr.kept b hl hb]

theorem Reached.nothingNew (hr : Reached s n u) (h : Image size s) (hn : n < ePhnum s.mem)
    (hrun : eachSegment ret u = some t)
    (hkept : ∀ b, ¬InLoad s.mem b → ¬InStack (s.reg .esp).toNat b → t.mem b = s.mem b) :
    NothingNew s.mem n := by
  obtain ⟨t', hrun', -, -, hp⟩ := eachSegment_run h hn hr.at_pass (hr.image h) ret
  obtain rfl : t = t' := Option.some.inj (hrun.symm.trans hrun')
  have himage : Copied s.mem n → ImageKept size s n := by
    intro hc
    refine hr.imageKept h hn hc fun b hb => ?_
    have hs : ¬InStack (s.reg .esp).toNat b := fun hs => (h.stack b hs).1 hb
    rw [← hp.copy hc b hs]
    exact hkept b (fun hl => h.apart b hl hb) hs
  intro b v hv hl
  have hs : ¬InStack (s.reg .esp).toNat b := by
    obtain ⟨hc, j, hj, rfl, -⟩ := hv
    exact h.stack_copied n hn hc j hj
  rcases hr.bytes h hn hp himage hs with hbrings | ⟨hnone, -⟩
  · rw [hv.unique hbrings, hkept b hl hs]
  · exact absurd hv (hnone v)

theorem readHeader_run (s : Cpu) : AtPass s 0 (run readHeader s) ∧
    (run readHeader s).reg .ecx = UInt32.ofNat (ePhnum s.mem) ∧ (run readHeader s).mem = s.mem := by
  have hphentsize : (kernelBinBaseAddr + 42).toNat = 0x70000 + 42 := by decide
  have hphoff : (kernelBinBaseAddr + 28).toNat = 0x70000 + 28 := by decide
  have hphnum : (kernelBinBaseAddr + 44).toNat = 0x70000 + 44 := by decide
  have hbase : kernelBinBaseAddr = UInt32.ofNat 0x70000 := by decide
  refine ⟨⟨?_, ?_, ?_⟩, ?_, ?_⟩
  · have hebx : (run readHeader s).reg .ebx = ePhoff s.mem + kernelBinBaseAddr := by
      simp [readHeader, set_reg_of_ne, Cpu.word, hphoff, ePhoff]
    rw [hebx, phdrAddr, Nat.zero_mul, Nat.add_zero, UInt32.ofNat_add, UInt32.ofNat_toNat, hbase,
      UInt32.add_comm]
  · simp [readHeader, set_reg_of_ne, hphentsize, ePhentsize]
  · simp [readHeader, set_reg_of_ne]
  · simp [readHeader, set_reg_of_ne, hphnum, ePhnum]
  · simp [readHeader]

theorem Reached.start (s : Cpu) : Reached s 0 (run readHeader s) := by
  obtain ⟨hat, -, hmem⟩ := readHeader_run s
  exact ⟨hat, fun b _ => hmem ▸ Ends.zero s.mem b, fun b _ _ => congrFun hmem b⟩

variable (ret) in
theorem reached_run (h : Image size s) (hn : n ≤ ePhnum s.mem)
    (hnew : ∀ k < n, NothingNew s.mem k) :
    ∃ u, passes (eachSegment ret) n (run readHeader s) = some u ∧ Reached s n u := by
  induction n with
  | zero => exact ⟨_, rfl, .start s⟩
  | succ n ih =>
    obtain ⟨u, hu, hr⟩ := ih (by omega) fun k hk => hnew k (by omega)
    obtain ⟨t, ht, -, hnext⟩ := hr.step h (by omega) (hnew n (by omega)) ret
    exact ⟨_, by rw [passes, hu, Option.bind_eq_bind, Option.bind_some, ht]; rfl, hnext⟩

theorem ePhnum_lt (mem : Nat → UInt8) : ePhnum mem < 2 ^ 32 := by
  have hlow := (mem (0x70000 + 44)).toNat_lt
  have hhigh := (mem (0x70000 + 44 + 1)).toNat_lt
  rw [ePhnum, half]
  omega

theorem kernelInit_run (h : Image size s) (hnew : ∀ n < ePhnum s.mem, NothingNew s.mem n)
    {fuel : Nat} (hfuel : ePhnum s.mem ≤ fuel) : ∃ t, kernelInit ret fuel s = some t ∧
      t.reg .eax = eEntry s.mem ∧
      ∀ b, ¬InStack (s.reg .esp).toNat b → Ends s.mem (ePhnum s.mem) b (t.mem b) := by
  obtain ⟨u, hloop, hr⟩ := loop_rule (Reached s) h.phnum (ePhnum_lt s.mem) hfuel
    (readHeader_run s).2.1 (.start s) fun n hn u hr _ => hr.step h hn (hnew n hn) ret
  refine ⟨_, by rw [kernelInit, hloop]; rfl, ?_, ?_⟩
  · have hentry : (kernelBinBaseAddr + 0x18).toNat = 0x70000 + 0x18 := by decide
    have hsize := h.ehdr
    simp only [run_cons, run_nil, exec_mov, read_mem, write_reg, eval_disp, set_reg_self, Cpu.word,
      hentry]
    exact wordAt_congr fun b hb hb' => hr.image h b ⟨by omega, by omega⟩
  · intro b hb
    simp only [run_cons, run_nil, exec_mov, write_reg, set_mem]
    exact hr.ends b hb

theorem kernelLoaded_of_loadable (h : Image size s) (hload : Loadable s.mem) :
    KernelLoaded ret s := by
  refine ⟨⟨ePhnum s.mem, fun fuel hfuel => ?_⟩, fun n hn => ?_⟩
  · obtain ⟨t, hrun, heax, hends⟩ := kernelInit_run h hload.outside hfuel
    refine ⟨t, hrun, heax, fun n hn j hj => ?_⟩
    have hstack : ¬InStack (s.reg .esp).toNat (byteAddr (phdr s.mem n).vaddr j) :=
      fun hs => (h.stack _ hs).2 ⟨n, hn, j, hj, rfl⟩
    split
    case isTrue hfile => exact (hends _ hstack).unique (hload.file n hn j hfile)
    case isFalse hbss => exact (hends _ hstack).unique (hload.bss n hn j hj (Nat.not_lt.mp hbss))
  · obtain ⟨t, hrun, hr⟩ := reached_run ret h hn fun k hk => hload.outside k (by omega)
    exact ⟨t, hrun, hr.kept⟩

theorem nothingNew_of_kept (h : Image size s)
    (hkept : ∀ n ≤ ePhnum s.mem, ∃ t, passes (eachSegment ret) n (run readHeader s) = some t ∧
      ∀ b, ¬InLoad s.mem b → ¬InStack (s.reg .esp).toNat b → t.mem b = s.mem b) :
    ∀ n < ePhnum s.mem, NothingNew s.mem n := by
  intro n
  induction n using Nat.strong_induction_on with
  | _ n ih =>
    intro hn
    obtain ⟨u, hu, hr⟩ := reached_run ret h hn.le fun k hk => ih k hk (by omega)
    obtain ⟨t, ht, hsame⟩ := hkept (n + 1) hn
    rw [passes, hu, Option.bind_eq_bind, Option.bind_some] at ht
    obtain ⟨v, hv, htv⟩ := Option.bind_eq_some_iff.mp ht
    have hmem : t.mem = v.mem := by rw [← Option.some.inj htv, set_mem]
    exact hr.nothingNew h hn hv (hmem ▸ hsame)

theorem loadable_of_kernelLoaded (h : Image size s) (hload : KernelLoaded ret s) :
    Loadable s.mem := by
  have hnew := nothingNew_of_kept h hload.kept
  obtain ⟨fuel, hfuel⟩ := hload.loaded
  obtain ⟨t, hrun, -, hbytes⟩ := hfuel (max fuel (ePhnum s.mem)) (le_max_left ..)
  obtain ⟨t', hrun', -, hends⟩ := kernelInit_run h hnew (le_max_right fuel (ePhnum s.mem))
  obtain rfl : t = t' := Option.some.inj (hrun.symm.trans hrun')
  have hseg : ∀ n, IsLoad s.mem n → ∀ j < (phdr s.mem n).memsz.toNat,
      Ends s.mem (ePhnum s.mem) (byteAddr (phdr s.mem n).vaddr j)
        (if j < (phdr s.mem n).filesz.toNat then fileByte s.mem n j else 0) := by
    intro n hn j hj
    rw [← hbytes n hn j hj]
    exact hends _ fun hs => (h.stack _ hs).2 ⟨n, hn, j, hj, rfl⟩
  refine ⟨hnew, fun n hn j hj => ?_, fun n hn j hj hle => ?_⟩
  · have hfile := hseg n hn j (Nat.lt_of_lt_of_le hj (UInt32.le_iff_toNat_le.mp (h.sizes n hn)))
    rwa [if_pos hj] at hfile
  · have hbss := hseg n hn j hj
    rwa [if_neg (Nat.not_lt.mpr hle)] at hbss

end Run

/-- The bytes of an image with one program header, of type `PT_LOAD`: the segment has the two bytes
at 0x1000, and the file one byte for it. -/
def oneSegment (k : Nat) : UInt8 :=
  ([(28, 52), (42, 32), (44, 1), (52, 1), (56, 84), (61, 0x10), (68, 1), (72, 2), (84, 0x55)].lookup
    k).getD 0

/-- The image in a memory that holds `v` everywhere else. -/
def oneSegmentCpu (v : UInt8) : Cpu where
  reg := fun _ => 0x900
  seg := fun _ => 0
  eip := 0
  eflags := 0
  mem := fun b => if 0x70000 ≤ b ∧ b < 0x70000 + 85 then oneSegment (b - 0x70000) else v
  zeroExtends := false

section Sample

variable {v : UInt8} {n b k : Nat}

theorem oneSegment_mem (v : UInt8) (hk : k < 85) :
    (oneSegmentCpu v).mem (0x70000 + k) = oneSegment k := by
  rw [oneSegmentCpu]
  dsimp only
  rw [if_pos ⟨by omega, by omega⟩, Nat.add_sub_cancel_left]

theorem oneSegment_half (v : UInt8) (hk : k + 1 < 85) :
    half (oneSegmentCpu v).mem (0x70000 + k) = half oneSegment k := by
  rw [half, half, Nat.add_assoc, oneSegment_mem v (by omega), oneSegment_mem v (by omega)]

theorem oneSegment_word (v : UInt8) (hk : k + 3 < 85) :
    wordAt (oneSegmentCpu v).mem (0x70000 + k) = wordAt oneSegment k := by
  have hadd : ∀ i, 0x70000 + k + i = 0x70000 + (k + i) := Nat.add_assoc _ _
  rw [wordAt, wordAt, load32, load32, hadd 1, hadd 2, hadd 3,
    oneSegment_mem v (by omega), oneSegment_mem v (by omega), oneSegment_mem v (by omega),
    oneSegment_mem v (by omega)]

theorem oneSegment_phnum (v : UInt8) : ePhnum (oneSegmentCpu v).mem = 1 :=
  (oneSegment_half v (by decide)).trans (by decide)

theorem oneSegment_phdrAddr (v : UInt8) : phdrAddr (oneSegmentCpu v).mem 0 = 0x70000 + 52 := by
  have hphoff : ePhoff (oneSegmentCpu v).mem = 52 :=
    (oneSegment_word v (by decide)).trans (by decide)
  rw [phdrAddr, hphoff, Nat.zero_mul]
  rfl

theorem oneSegment_phdr (v : UInt8) : phdr (oneSegmentCpu v).mem 0 = ⟨1, 84, 0x1000, 1, 2⟩ := by
  rw [phdr, oneSegment_phdrAddr, oneSegment_word v (by decide), Nat.add_assoc, Nat.add_assoc,
    Nat.add_assoc, Nat.add_assoc, oneSegment_word v (by decide), oneSegment_word v (by decide),
    oneSegment_word v (by decide), oneSegment_word v (by decide)]
  decide

theorem oneSegment_isLoad : IsLoad (oneSegmentCpu v).mem n ↔ n = 0 := by
  rw [IsLoad, oneSegment_phnum, Nat.lt_one_iff]
  refine and_iff_left_of_imp fun hn => ?_
  rw [hn, oneSegment_phdr]

theorem oneSegment_inLoad : InLoad (oneSegmentCpu v).mem b ↔ b = 0x1000 ∨ b = 0x1001 := by
  have hbytes : (∃ j < 2, b = byteAddr 0x1000 j) ↔ b = 0x1000 ∨ b = 0x1001 := by
    have h₀ : byteAddr 0x1000 0 = 0x1000 := by decide
    have h₁ : byteAddr 0x1000 1 = 0x1001 := by decide
    rw [Nat.exists_lt_succ_right, Nat.exists_lt_succ_right]
    simp [h₀, h₁]
  rw [InLoad]
  simp only [oneSegment_isLoad, exists_eq_left, oneSegment_phdr]
  exact hbytes

theorem oneSegment_copied : Copied (oneSegmentCpu v).mem 0 := by
  rw [Copied, oneSegment_phdrAddr, oneSegment_mem v (by decide)]
  decide

theorem oneSegment_brings {w : UInt8} :
    Brings (oneSegmentCpu v).mem 0 b w ↔ b = 0x1000 ∧ w = 0x55 := by
  have haddr : byteAddr 0x1000 0 = 0x1000 := by decide
  have hbyte : fileByte (oneSegmentCpu v).mem 0 0 = 0x55 := by
    rw [fileByte, oneSegment_phdr]
    exact (oneSegment_mem v (by decide)).trans (by decide)
  rw [Brings, and_iff_right oneSegment_copied, oneSegment_phdr]
  have hone : (1 : UInt32).toNat = 1 := by decide
  simp only [hone, Nat.lt_one_iff, exists_eq_left, haddr, hbyte]

theorem oneSegment_image (v : UInt8) : Image 85 (oneSegmentCpu v) := by
  have hesp : ((oneSegmentCpu v).reg .esp).toNat = 0x900 := by
    rw [oneSegmentCpu]
    exact (by decide : (0x900 : UInt32).toNat = 0x900)
  have hzero : ∀ n < ePhnum (oneSegmentCpu v).mem, n = 0 := fun n hn =>
    Nat.lt_one_iff.mp (oneSegment_phnum v ▸ hn)
  refine ⟨by decide, by decide, ?_, ?_, ?_, ?_, ?_, ?_, ?_, ?_, ?_⟩
  · rw [oneSegment_phnum]
    decide
  · intro n hn
    rw [hzero n hn, oneSegment_phdrAddr]
    decide
  · intro n hn _
    rw [hzero n hn, oneSegment_phdr]
    decide
  · intro n hn
    rw [oneSegment_isLoad.mp hn, oneSegment_phdr]
    decide
  · intro n n' hn hn' hne
    exact absurd ((oneSegment_isLoad.mp hn).trans (oneSegment_isLoad.mp hn').symm) hne
  · intro b hb hin
    have hb' := oneSegment_inLoad.mp hb
    unfold InImage at hin
    omega
  · rw [hesp]
    decide
  · intro b hb
    rw [hesp] at hb
    unfold InStack at hb
    refine ⟨fun hin => ?_, fun hl => ?_⟩
    · unfold InImage at hin
      omega
    · have hb' := oneSegment_inLoad.mp hl
      omega
  · intro n hn _
    rw [hzero n hn, oneSegment_phdr, hesp]
    unfold InStack
    decide

theorem oneSegment_loadable : Loadable (oneSegmentCpu v).mem ↔ v = 0 := by
  have hbyte : byteAddr 0x1000 1 = 0x1001 := by decide
  have hmem : (oneSegmentCpu v).mem 0x1001 = v := by
    rw [oneSegmentCpu]
    dsimp only
    rw [if_neg (by decide)]
  have hbss : Ends (oneSegmentCpu v).mem 1 0x1001 v := by
    refine .inr ⟨hmem, fun k hk w hw => ?_⟩
    rw [Nat.lt_one_iff.mp hk, oneSegment_brings] at hw
    exact absurd hw.1 (by decide)
  constructor
  · intro h
    have hzero := h.bss 0 (oneSegment_isLoad.mpr rfl) 1
    rw [oneSegment_phdr, oneSegment_phnum, hbyte] at hzero
    exact hbss.unique (hzero (by decide) (by decide))
  · rintro rfl
    refine ⟨fun n hn b w hw hl => ?_, fun n hn j hj => ?_, fun n hn j hj hle => ?_⟩
    · rw [oneSegment_phnum, Nat.lt_one_iff] at hn
      rw [hn, oneSegment_brings] at hw
      exact absurd (oneSegment_inLoad.mpr (.inl hw.1)) hl
    · rw [oneSegment_isLoad] at hn
      subst hn
      rw [oneSegment_phnum]
      exact Brings.ends ⟨oneSegment_copied, j, hj, rfl, rfl⟩
    · rw [oneSegment_isLoad] at hn
      subst hn
      rw [oneSegment_phdr] at hj hle ⊢
      rw [oneSegment_phnum]
      have hj' : j = 1 := Nat.le_antisymm (Nat.le_of_lt_succ hj) hle
      rw [hj', hbyte]
      exact hbss

end Sample

end OriginOS.Boot
