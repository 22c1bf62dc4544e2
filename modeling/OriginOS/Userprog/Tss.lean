import OriginOS.Kernel.Entry
import OriginOS.Kernel.Interrupt

/-! The task state segment and the segments of user programs: `userprog/tss.c`, and the I/O ports
that the task state segment leaves to user programs.

The structure `tss` has 27 words, so that `io_base` is at offset 104. The processor's field for the
I/O map is the upper half of the word before it, which stays 0: the map that the processor reads is
the structure itself. -/

namespace OriginOS.Tss

open Lib Lib.X86 Entry

def tssSize : Nat := 108

/-- The address of the global descriptor table that `tss_init` loads. -/
def gdtBase : Nat := 0xc0000503

def gdtLimit : Nat := 8 * 7 - 1

def selectorTss : Nat := 0x20

def tssAttrHigh : UInt8 := 0x80

def tssAttrLow : UInt8 := 0x89

def gdtAttrHigh : UInt8 := 0xc0

def gdtCodeAttrLowDpl3 : UInt8 := 0xf8

def gdtDataAttrLowDpl3 : UInt8 := 0xf2

structure GdtDesc where
  limitLowWord : UInt16
  baseLowWord : UInt16
  baseMidByte : UInt8
  attrLowByte : UInt8
  limitHighAttrHigh : UInt8
  baseHighByte : UInt8
deriving DecidableEq, Repr

def makeGdtDesc (descBase limit : UInt32) (attrLow attrHigh : UInt8) : GdtDesc where
  limitLowWord := (limit &&& 0x0000ffff).toUInt16
  baseLowWord := (descBase &&& 0x0000ffff).toUInt16
  baseMidByte := ((descBase &&& 0x00ff0000) >>> 16).toUInt8
  attrLowByte := attrLow
  limitHighAttrHigh := (((limit &&& 0x000f0000) >>> 16) + attrHigh.toUInt32).toUInt8
  baseHighByte := (descBase >>> 24).toUInt8

def GdtDesc.store (d : GdtDesc) (mem : Nat → UInt8) (a : Nat) : Nat → UInt8 :=
  store32 (store32 mem a (d.limitLowWord.toNat + 2 ^ 16 * d.baseLowWord.toNat)) (a + 4)
    (d.baseMidByte.toNat + 2 ^ 8 * d.attrLowByte.toNat + 2 ^ 16 * d.limitHighAttrHigh.toNat +
      2 ^ 24 * d.baseHighByte.toNat)

def updateTssEsp (tss pthread : Nat) (mem : Nat → UInt8) : Nat → UInt8 :=
  store32 mem (tss + 4) ((pthread + 4096) % 2 ^ 32)

/-- The memory after `tss_init`, with the variable `tss` at the given address. -/
def tssInit (tss : Nat) (mem : Nat → UInt8) : Nat → UInt8 :=
  let mem := fill mem tss tssSize 0
  let mem := store32 mem (tss + 8) selectorKStack.toNat
  let mem := store32 mem (tss + 104) tssSize
  let mem := (makeGdtDesc (.ofNat tss) (.ofNat (tssSize - 1)) tssAttrLow tssAttrHigh).store mem
    0xc0000523
  let mem := (makeGdtDesc 0 0xfffff gdtCodeAttrLowDpl3 gdtAttrHigh).store mem 0xc000052b
  (makeGdtDesc 0 0xfffff gdtDataAttrLowDpl3 gdtAttrHigh).store mem 0xc0000533

/-- The descriptor that a selector stands for. -/
def descriptor (mem : Nat → UInt8) (selector : Nat) : SegDesc :=
  segDesc mem (gdtBase + selector / 8 * 8)

/-! ### Descriptors -/

theorem shiftRight_and_mask (w m j k : Nat) (hm : m >>> j = 2 ^ k - 1) :
    (w &&& m) >>> j = w / 2 ^ j % 2 ^ k := by
  rw [Nat.shiftRight_and_distrib, hm, Nat.and_two_pow_sub_one_eq_mod, Nat.shiftRight_eq_div_pow]

theorem granularity {m c x : Nat} (hm : m < 2 ^ 8) (hc : c < 2 ^ 8) (hx : x < 2 ^ 8) (t : Nat) :
    (m + 2 ^ 8 * c + 2 ^ 16 * x + 2 ^ 24 * t) / 2 ^ 23 % 2 = x / 2 ^ 7 := by
  omega

section Descriptor

variable (descBase limit : UInt32) (attrLow attrHigh : UInt8)

theorem makeGdtDesc_baseMidByte :
    (makeGdtDesc descBase limit attrLow attrHigh).baseMidByte.toNat =
      descBase.toNat / 2 ^ 16 % 2 ^ 8 := by
  show ((descBase &&& 0x00ff0000) >>> 16).toUInt8.toNat = _
  rw [UInt32.toNat_toUInt8, UInt32.toNat_shiftRight, UInt32.toNat_and]
  show (descBase.toNat &&& 0x00ff0000) >>> 16 % 2 ^ 8 = _
  rw [shiftRight_and_mask _ _ 16 8 rfl, Nat.mod_mod]

theorem makeGdtDesc_baseHighByte :
    (makeGdtDesc descBase limit attrLow attrHigh).baseHighByte.toNat = descBase.toNat / 2 ^ 24 := by
  have hlt := descBase.toNat_lt
  show (descBase >>> 24).toUInt8.toNat = _
  rw [UInt32.toNat_toUInt8, UInt32.toNat_shiftRight]
  show descBase.toNat >>> 24 % 2 ^ 8 = _
  rw [Nat.shiftRight_eq_div_pow]
  omega

variable {attrHigh} in
theorem makeGdtDesc_limitHighAttrHigh (hattr : attrHigh.toNat % 2 ^ 4 = 0) :
    (makeGdtDesc descBase limit attrLow attrHigh).limitHighAttrHigh.toNat =
      limit.toNat / 2 ^ 16 % 2 ^ 4 + attrHigh.toNat := by
  have hlt := attrHigh.toNat_lt
  show (((limit &&& 0x000f0000) >>> 16) + attrHigh.toUInt32).toUInt8.toNat = _
  rw [UInt32.toNat_toUInt8, UInt32.toNat_add, UInt32.toNat_shiftRight, UInt32.toNat_and,
    UInt8.toNat_toUInt32]
  show ((limit.toNat &&& 0x000f0000) >>> 16 + attrHigh.toNat) % 2 ^ 32 % 2 ^ 8 = _
  rw [shiftRight_and_mask _ _ 16 4 rfl]
  omega

variable {limit attrHigh} in
theorem segDesc_store (hlimit : limit.toNat < 2 ^ 20) (hattr : attrHigh.toNat % 2 ^ 4 = 0)
    (mem : Nat → UInt8) (a : Nat) :
    segDesc ((makeGdtDesc descBase limit attrLow attrHigh).store mem a) a =
      { base := descBase.toNat
        limit := if attrHigh.toNat / 2 ^ 7 = 1 then 4096 * limit.toNat + 4095 else limit.toNat
        type := attrLow.toNat % 2 ^ 4
        system := attrLow.toNat / 2 ^ 4 % 2 = 0
        dpl := attrLow.toNat / 2 ^ 5 % 4
        present := attrLow.toNat / 2 ^ 7 = 1 } := by
  have hb := descBase.toNat_lt
  have hl := attrLow.toNat_lt
  have hh := attrHigh.toNat_lt
  have hmid := makeGdtDesc_baseMidByte descBase limit attrLow attrHigh
  have hhigh := makeGdtDesc_baseHighByte descBase limit attrLow attrHigh
  have hlah := makeGdtDesc_limitHighAttrHigh descBase limit attrLow hattr
  have hlimitLow : (makeGdtDesc descBase limit attrLow attrHigh).limitLowWord.toNat =
      limit.toNat % 2 ^ 16 := Interrupt.toNat_low limit
  have hbaseLow : (makeGdtDesc descBase limit attrLow attrHigh).baseLowWord.toNat =
      descBase.toNat % 2 ^ 16 := Interrupt.toNat_low descBase
  have hattrLow : (makeGdtDesc descBase limit attrLow attrHigh).attrLowByte = attrLow := rfl
  generalize makeGdtDesc descBase limit attrLow attrHigh = d at *
  have hlo : load32 (d.store mem a) a =
      limit.toNat % 2 ^ 16 + 2 ^ 16 * (descBase.toNat % 2 ^ 16) := by
    rw [GdtDesc.store, load32_store32_of_disjoint (by omega), load32_store32_self (by omega),
      hlimitLow, hbaseLow]
  have hhi : load32 (d.store mem a) (a + 4) = descBase.toNat / 2 ^ 16 % 2 ^ 8 +
      2 ^ 8 * attrLow.toNat + 2 ^ 16 * (limit.toNat / 2 ^ 16 + attrHigh.toNat) +
      2 ^ 24 * (descBase.toNat / 2 ^ 24) := by
    rw [GdtDesc.store, load32_store32_self (by rw [hattrLow]; omega), hmid, hattrLow, hlah, hhigh]
    omega
  have hg := granularity (Nat.mod_lt (descBase.toNat / 2 ^ 16) (Nat.two_pow_pos 8)) hl
    (show limit.toNat / 2 ^ 16 + attrHigh.toNat < 2 ^ 8 by omega) (descBase.toNat / 2 ^ 24)
  rw [segDesc, hlo, hhi, hg]
  simp only [SegDesc.mk.injEq, decide_eq_decide]
  refine ⟨by omega, ?_, by omega, by omega, by omega, by omega⟩
  exact if_congr (by omega) (by omega) (by omega)

end Descriptor

theorem segDesc_congr {mem mem' : Nat → UInt8} {a : Nat}
    (h : ∀ b, a ≤ b → b < a + 8 → mem' b = mem b) : segDesc mem' a = segDesc mem a := by
  have hlo : load32 mem' a = load32 mem a := load32_congr fun b hb hb' => h b hb (by omega)
  have hhi : load32 mem' (a + 4) = load32 mem (a + 4) :=
    load32_congr fun b hb hb' => h b (by omega) (by omega)
  rw [segDesc, segDesc, hlo, hhi]

theorem GdtDesc.store_of_not (d : GdtDesc) {mem : Nat → UInt8} {a b : Nat}
    (h : b < a ∨ a + 8 ≤ b) : d.store mem a b = mem b := by
  rw [store, store32_apply_of_not (by omega), store32_apply_of_not (by omega)]

/-! ### The segments of user programs -/

/-- A segment over the whole address space, for user programs. -/
def flatSegment (type : Nat) : SegDesc :=
  { base := 0, limit := 2 ^ 32 - 1, type, system := false, dpl := 3, present := true }

theorem descriptor_userData (tss : Nat) (mem : Nat → UInt8) :
    descriptor (tssInit tss mem) selectorUData.toNat = flatSegment 2 :=
  segDesc_store 0 gdtDataAttrLowDpl3 (by decide) (by decide) _ _

theorem descriptor_userCode (tss : Nat) (mem : Nat → UInt8) :
    descriptor (tssInit tss mem) selectorUCode.toNat = flatSegment 8 := by
  show segDesc (tssInit tss mem) 0xc000052b = flatSegment 8
  rw [tssInit, segDesc_congr fun b _ _ => GdtDesc.store_of_not _ (by omega)]
  exact segDesc_store 0 gdtCodeAttrLowDpl3 (by decide) (by decide) _ _

/-! ### The task state segment -/

/-- The variable `tss` is within the address space and not in the descriptor table. -/
structure Placed (tss : Nat) : Prop where
  fits : tss + tssSize ≤ 2 ^ 32
  apart : tss + tssSize ≤ gdtBase ∨ gdtBase + gdtLimit < tss

theorem descriptor_tss {tss : Nat} (h : Placed tss) (mem : Nat → UInt8) :
    descriptor (tssInit tss mem) selectorTss =
      { base := tss, limit := 4096 * 107 + 4095, type := 9, system := true, dpl := 0,
        present := true } := by
  have hfits := h.fits
  have hbase : (UInt32.ofNat tss).toNat = tss := by
    rw [UInt32.toNat_ofNat', Nat.mod_eq_of_lt]
    unfold tssSize at hfits
    omega
  show segDesc (tssInit tss mem) 0xc0000523 = _
  rw [tssInit, segDesc_congr fun b _ _ => GdtDesc.store_of_not _ (by omega),
    segDesc_congr fun b _ _ => GdtDesc.store_of_not _ (by omega)]
  refine (segDesc_store (.ofNat tss) tssAttrLow (by decide) (by decide) _ _).trans ?_
  rw [hbase]
  rfl

/-- The words of the structure while `pthread` runs. -/
def tssWord (pthread : Nat) : Nat → Nat
  | 1 => (pthread + 4096) % 2 ^ 32
  | 2 => selectorKStack.toNat
  | 26 => tssSize
  | _ => 0

theorem load32_tss {tss i : Nat} (h : Placed tss) (pthread : Nat) (mem : Nat → UInt8)
    (hi : i < 27) :
    load32 (updateTssEsp tss pthread (tssInit tss mem)) (tss + 4 * i) = tssWord pthread i := by
  have hapart := h.apart
  unfold tssSize gdtBase gdtLimit at hapart
  have hinit : load32 (tssInit tss mem) (tss + 4 * i) = load32 (store32 (store32
      (fill mem tss tssSize 0) (tss + 8) selectorKStack.toNat) (tss + 104) tssSize)
        (tss + 4 * i) := by
    refine load32_congr fun b hb hb' => ?_
    refine (GdtDesc.store_of_not _ (by omega)).trans ?_
    refine (GdtDesc.store_of_not _ (by omega)).trans ?_
    exact GdtDesc.store_of_not _ (by omega)
  unfold updateTssEsp tssWord
  split
  · exact load32_store32_self (Nat.mod_lt _ (Nat.two_pow_pos 32))
  · rw [load32_store32_of_disjoint (by omega), hinit, load32_store32_of_disjoint (by omega)]
    exact load32_store32_self (by decide)
  · rw [load32_store32_of_disjoint (by omega), hinit]
    exact load32_store32_self (by decide)
  · next h₁ h₂ h₂₆ =>
    have hne : i ≠ 1 ∧ i ≠ 2 ∧ i ≠ 26 := ⟨h₁, h₂, h₂₆⟩
    rw [load32_store32_of_disjoint (by omega), hinit, load32_store32_of_disjoint (by omega),
      load32_store32_of_disjoint (by omega)]
    exact load32_fill_zero ⟨by omega, by unfold tssSize; omega⟩

/-! ### I/O ports -/

structure UserState (u : X86.Cpu) : Prop where
  cpl : u.cpl = 3
  iopl : iopl u.eflags = 0

theorem userState_of_started {page function : UInt32} {u : X86.Cpu}
    (h : Started page function u) : UserState u := by
  refine ⟨?_, ?_⟩
  · rw [X86.Cpu.cpl, h.cs]
    rfl
  · rw [h.eflags]
    rfl

theorem userState_of_restored {s u : X86.Cpu} (h : UserState s) (hu : Restored s u) :
    UserState u := by
  refine ⟨?_, ?_⟩
  · rw [X86.Cpu.cpl, hu.seg]
    exact h.cpl
  · rw [hu.eflags]
    exact h.iopl

section Ports

variable {tss pthread : Nat} {mem mem' : Nat → UInt8}

theorem ioAllowed_tss (htss : Placed tss)
    (h : ∀ a, tss ≤ a → a < tss + tssSize →
      mem' a = updateTssEsp tss pthread (tssInit tss mem) a) {port : Nat}
    (hport : port < 8 * tssSize) :
    ioAllowed mem' (descriptor (tssInit tss mem) selectorTss) 3 0 port =
      !(tssWord pthread (port / 32)).testBit (port % 32) := by
  unfold tssSize at h hport
  have hword : ∀ i < 27, load32 mem' (tss + 4 * i) = tssWord pthread i := by
    intro i hi
    rw [← load32_tss htss pthread mem hi]
    exact load32_congr fun b hb hb' => h b (by omega) (by omega)
  have hbase : ioMapBase mem' tss = 0 := by
    have hzero : load32 mem' (tss + 4 * 25) = 0 := hword 25 (by decide)
    unfold ioMapBase
    rw [toNat_byte mem' (tss + 4 * 25) (show 2 < 4 by decide),
      toNat_byte mem' (tss + 4 * 25) (show 3 < 4 by decide), hzero]
    rfl
  have hbit : (mem' (tss + port / 8)).toNat.testBit (port % 8) =
      (tssWord pthread (port / 32)).testBit (port % 32) := by
    have hbyte : tss + port / 8 = tss + 4 * (port / 32) + port % 32 / 8 := by omega
    have hindex : port % 8 = port % 32 % 8 := by omega
    rw [← hword _ (by omega), testBit_load32 _ _ (Nat.mod_lt port (by decide)), hbyte, hindex]
  have hlimit : port / 8 + 1 ≤ 4096 * 107 + 4095 := by omega
  simp only [ioAllowed, descriptor_tss htss, hbase, Nat.zero_add, hbit, hlimit]
  rfl

end Ports

theorem tssWord_testBit {pthread port : Nat} (hport : port < 8 * tssSize) :
    (tssWord pthread (port / 32)).testBit (port % 32) = true ↔
      (32 ≤ port ∧ port < 64 ∧ ((pthread + 4096) % 2 ^ 32).testBit (port - 32) = true) ∨
        port ∈ [0x44, 0x342, 0x343, 0x345, 0x346] := by
  unfold tssSize at hport
  have hkstack : ∀ i < 32, (selectorKStack.toNat.testBit i = true ↔ i = 4) := by decide
  have hsize : ∀ i < 32, (tssSize.testBit i = true ↔ i = 2 ∨ i = 3 ∨ i = 5 ∨ i = 6) := by decide
  simp only [List.mem_cons, List.not_mem_nil, or_false]
  unfold tssWord
  split
  case h_1 h =>
    have hsub : port % 32 = port - 32 := by omega
    rw [hsub]
    constructor
    · exact fun hbit => .inl ⟨by omega, by omega, hbit⟩
    · rintro (⟨-, -, hbit⟩ | hmem)
      · exact hbit
      · omega
  case h_2 h =>
    rw [hkstack _ (Nat.mod_lt port (by decide))]
    omega
  case h_3 h =>
    rw [hsize _ (Nat.mod_lt port (by decide))]
    omega
  case h_4 h₁ h₂ h₂₆ =>
    have hne : port / 32 ≠ 1 ∧ port / 32 ≠ 2 ∧ port / 32 ≠ 26 := ⟨h₁, h₂, h₂₆⟩
    rw [Nat.zero_testBit]
    refine iff_of_false Bool.false_ne_true ?_
    rintro (⟨hge, hlt, -⟩ | hmem) <;> omega

/-- A user program may access the I/O port at `port` unless the bit for it is set in the task state
segment itself, which is what the processor takes for the I/O map. Apart from the ports `0x20` to
`0x3f`, for which the bits are those of the top of its kernel stack, five ports are closed to it;
the ports of the disks, of the keyboard and of the timer are not. -/
theorem user_ports {tss pthread port : Nat} {mem : Nat → UInt8} {u : X86.Cpu} (hu : UserState u)
    (htss : Placed tss)
    (h : ∀ a, tss ≤ a → a < tss + tssSize →
      u.mem a = updateTssEsp tss pthread (tssInit tss mem) a) (hport : port < 8 * tssSize) :
    ioAllowed u.mem (descriptor (tssInit tss mem) selectorTss) u.cpl.toNat (iopl u.eflags) port =
        true ↔
      ¬ (32 ≤ port ∧ port < 64 ∧ ((pthread + 4096) % 2 ^ 32).testBit (port - 32) = true) ∧
        port ∉ [0x44, 0x342, 0x343, 0x345, 0x346] := by
  rw [hu.cpl, hu.iopl]
  refine (iff_of_eq (congrArg (· = true) (ioAllowed_tss htss h hport))).trans ?_
  rw [Bool.not_eq_true', ← Bool.not_eq_true, tssWord_testBit hport, not_or]

/-- A process with its PCB at `0xc0105000`, and the task state segment at `0xc0010000`. -/
def sampleUser : X86.Cpu :=
  { sampleCpu selectorUCode selectorUData with
    mem := updateTssEsp 0xc0010000 0xc0105000 (tssInit 0xc0010000 fun _ => 0) }

/-- The command port of the first controller, the data port of the disks, and the port of the
keyboard are open, and the port `0x44` is not. -/
theorem user_ports_open :
    UserState sampleUser ∧ Placed 0xc0010000 ∧
    (∀ a, 0xc0010000 ≤ a → a < 0xc0010000 + tssSize → sampleUser.mem a =
      updateTssEsp 0xc0010000 0xc0105000 (tssInit 0xc0010000 fun _ => 0) a) ∧
    (∀ port ∈ [0x20, 0x60, 0x1f0], ioAllowed sampleUser.mem
      (descriptor (tssInit 0xc0010000 fun _ => 0) selectorTss) sampleUser.cpl.toNat
        (iopl sampleUser.eflags) port = true) ∧
    ¬ ioAllowed sampleUser.mem (descriptor (tssInit 0xc0010000 fun _ => 0) selectorTss)
      sampleUser.cpl.toNat (iopl sampleUser.eflags) 0x44 = true := by
  have hu : UserState sampleUser := ⟨rfl, rfl⟩
  have htss : Placed 0xc0010000 := ⟨by decide, .inr (by decide)⟩
  have hmem : ∀ a, 0xc0010000 ≤ a → a < 0xc0010000 + tssSize → sampleUser.mem a =
      updateTssEsp 0xc0010000 0xc0105000 (tssInit 0xc0010000 fun _ => 0) a := fun _ _ _ => rfl
  have hports := fun port (hport : port < 8 * tssSize) => user_ports hu htss hmem hport
  refine ⟨hu, htss, hmem, fun port hport => ?_, ?_⟩
  · simp only [List.mem_cons, List.not_mem_nil, or_false] at hport
    rcases hport with rfl | rfl | rfl
    · exact (hports 0x20 (by decide)).mpr (by decide)
    · exact (hports 0x60 (by decide)).mpr (by decide)
    · exact (hports 0x1f0 (by decide)).mpr (by decide)
  · rw [hports 0x44 (by decide)]
    decide

end OriginOS.Tss
