import Mathlib.Data.List.Basic
import OriginOS.Lib.X86Desc

/-! The interrupt descriptor table that `idt_desc_init` of `kernel/interrupt.c` fills.

`intr_entry_table` of `kernel/kernel.S` has `0x30` entries, and `idt_desc_init` reads `0x80`; what
it takes for the others is whatever is behind the table in memory. -/

namespace OriginOS.Interrupt

open Lib Lib.X86

def idtDescCnt : Nat := 0x81

/-- The number of `VECTOR`s in `kernel/kernel.S`. -/
def vectorCnt : Nat := 0x30

def selectorKCode : UInt16 := 0x08

def idtDescAttrDpl0 : UInt8 := 0x8e

def idtDescAttrDpl3 : UInt8 := 0xee

structure GateDesc where
  funcOffsetLowWord : UInt16
  selector : UInt16
  dcount : UInt8
  attr : UInt8
  funcOffsetHighWord : UInt16
deriving DecidableEq, Repr

def makeIdtDesc (attr : UInt8) (function : UInt32) : GateDesc where
  funcOffsetLowWord := (function &&& 0x0000ffff).toUInt16
  selector := selectorKCode
  dcount := 0
  attr := attr
  funcOffsetHighWord := ((function &&& 0xffff0000) >>> 16).toUInt16

def GateDesc.store (g : GateDesc) (mem : Nat → UInt8) (a : Nat) : Nat → UInt8 :=
  store32 (store32 mem a (g.funcOffsetLowWord.toNat + 2 ^ 16 * g.selector.toNat)) (a + 4)
    (g.dcount.toNat + 2 ^ 8 * g.attr.toNat + 2 ^ 16 * g.funcOffsetHighWord.toNat)

/-- The loop of `idt_desc_init` with `n` passes done. -/
def idtDescLoop (idt intrEntryTable : Nat) : Nat → (Nat → UInt8) → Nat → UInt8
  | 0, mem => mem
  | i + 1, mem =>
    let mem := idtDescLoop idt intrEntryTable i mem
    (makeIdtDesc idtDescAttrDpl0 (.ofNat (load32 mem (intrEntryTable + 4 * i)))).store mem
      (idt + 8 * i)

def idtDescInit (idt intrEntryTable : Nat) (syscallHandler : UInt32) (mem : Nat → UInt8) :
    Nat → UInt8 :=
  let mem := idtDescLoop idt intrEntryTable (idtDescCnt - 1) mem
  (makeIdtDesc idtDescAttrDpl3 syscallHandler).store mem (idt + 8 * (idtDescCnt - 1))

def idtLimit : Nat := 8 * idtDescCnt - 1

/-! ### The table -/

theorem toNat_low (f : UInt32) : (f &&& 0x0000ffff).toUInt16.toNat = f.toNat % 2 ^ 16 := by
  have hand : (f &&& 0x0000ffff).toNat = f.toNat % 2 ^ 16 := by
    rw [UInt32.toNat_and]
    exact Nat.and_two_pow_sub_one_eq_mod f.toNat 16
  rw [UInt32.toNat_toUInt16, hand, Nat.mod_mod]

theorem toNat_high (f : UInt32) :
    ((f &&& 0xffff0000) >>> 16).toUInt16.toNat = f.toNat / 2 ^ 16 := by
  have hlt := f.toNat_lt
  have hand : (f &&& 0xffff0000).toNat = f.toNat / 2 ^ 16 * 2 ^ 16 := by
    rw [UInt32.toNat_and]
    exact and_high_mask hlt (k := 16) (by decide)
  rw [UInt32.toNat_toUInt16, UInt32.toNat_shiftRight, hand]
  show (f.toNat / 2 ^ 16 * 2 ^ 16) >>> 16 % 2 ^ 16 = f.toNat / 2 ^ 16
  rw [Nat.shiftRight_eq_div_pow]
  omega

/-- What the processor reads from a gate that `make_idt_desc` made. -/
def gateOf (dpl function : Nat) : X86.GateDesc :=
  { offset := function, selector := 8, type := interruptGate, dpl, present := true }

theorem gateDesc_store {attr : UInt8} (dpl : Nat) (hdpl : dpl < 4)
    (hattr : attr.toNat = 0x8e + 2 ^ 5 * dpl) (f : UInt32) (mem : Nat → UInt8) (a : Nat) :
    gateDesc ((makeIdtDesc attr f).store mem a) a = gateOf dpl f.toNat := by
  have hf := f.toNat_lt
  have hattr' : (makeIdtDesc attr f).attr.toNat = 0x8e + 2 ^ 5 * dpl := hattr
  have hlow : (makeIdtDesc attr f).funcOffsetLowWord.toNat = f.toNat % 2 ^ 16 := toNat_low f
  have hhigh : (makeIdtDesc attr f).funcOffsetHighWord.toNat = f.toNat / 2 ^ 16 := toNat_high f
  have hlo : load32 ((makeIdtDesc attr f).store mem a) a = f.toNat % 2 ^ 16 + 2 ^ 16 * 8 := by
    rw [GateDesc.store, load32_store32_of_disjoint (by omega), load32_store32_self, hlow]
    · rfl
    · rw [hlow]
      show f.toNat % 2 ^ 16 + 2 ^ 16 * 8 < 2 ^ 32
      omega
  have hhi : load32 ((makeIdtDesc attr f).store mem a) (a + 4) =
      2 ^ 8 * (0x8e + 2 ^ 5 * dpl) + 2 ^ 16 * (f.toNat / 2 ^ 16) := by
    rw [GateDesc.store, load32_store32_self, hattr', hhigh]
    · show 0 + _ + _ = _
      omega
    · rw [hattr', hhigh]
      show 0 + 2 ^ 8 * (0x8e + 2 ^ 5 * dpl) + 2 ^ 16 * (f.toNat / 2 ^ 16) < 2 ^ 32
      omega
  rw [gateDesc, hlo, hhi, gateOf, interruptGate]
  simp only [X86.GateDesc.mk.injEq, decide_eq_true_eq]
  refine ⟨by omega, by omega, by omega, by omega, by omega⟩

theorem gateDesc_congr {mem mem' : Nat → UInt8} {a : Nat}
    (h : ∀ b, a ≤ b → b < a + 8 → mem' b = mem b) : gateDesc mem' a = gateDesc mem a := by
  have hlo : load32 mem' a = load32 mem a := load32_congr fun b hb hb' => h b hb (by omega)
  have hhi : load32 mem' (a + 4) = load32 mem (a + 4) :=
    load32_congr fun b hb hb' => h b (by omega) (by omega)
  rw [gateDesc, gateDesc, hlo, hhi]

theorem GateDesc.store_of_not (g : GateDesc) {mem : Nat → UInt8} {a b : Nat}
    (h : b < a ∨ a + 8 ≤ b) : g.store mem a b = mem b := by
  rw [store, store32_apply_of_not (by omega), store32_apply_of_not (by omega)]

section Table

variable {idt intrEntryTable : Nat} {mem : Nat → UInt8}

theorem idtDescLoop_of_not (n : Nat) {b : Nat} (h : b < idt ∨ idt + 8 * n ≤ b) :
    idtDescLoop idt intrEntryTable n mem b = mem b := by
  induction n with
  | zero => rfl
  | succ n ih =>
    rw [idtDescLoop, GateDesc.store_of_not _ (by omega)]
    exact ih (by omega)

theorem gateDesc_idtDescLoop {n i : Nat} (hi : i < n) :
    gateDesc (idtDescLoop idt intrEntryTable n mem) (idt + 8 * i) =
      gateOf 0 (load32 (idtDescLoop idt intrEntryTable i mem) (intrEntryTable + 4 * i)) := by
  induction n with
  | zero => omega
  | succ n ih =>
    rw [idtDescLoop]
    by_cases hlast : i = n
    · subst hlast
      have hlt := load32_lt (idtDescLoop idt intrEntryTable i mem) (intrEntryTable + 4 * i)
      rw [gateDesc_store 0 (by decide) (by decide), UInt32.toNat_ofNat', Nat.mod_eq_of_lt hlt]
    · rw [gateDesc_congr fun b _ _ => GateDesc.store_of_not _ (by omega)]
      exact ih (by omega)

variable (idt intrEntryTable) in
/-- The table of the stubs is not where the gates are. -/
def Apart : Prop :=
  intrEntryTable + 4 * vectorCnt ≤ idt ∨ idt + 8 * idtDescCnt ≤ intrEntryTable

theorem load32_idtDescLoop (h : Apart idt intrEntryTable) {i v : Nat} (hi : i < idtDescCnt)
    (hv : v < vectorCnt) :
    load32 (idtDescLoop idt intrEntryTable i mem) (intrEntryTable + 4 * v) =
      load32 mem (intrEntryTable + 4 * v) := by
  unfold Apart at h
  refine load32_congr fun b hb hb' => idtDescLoop_of_not i ?_
  omega

variable (syscallHandler : UInt32)

variable (idt intrEntryTable mem) in
theorem gateDesc_idtDescInit {v : Nat} (hv : v < idtDescCnt - 1) :
    ∃ f, gateDesc (idtDescInit idt intrEntryTable syscallHandler mem) (idt + 8 * v) = gateOf 0 f ∧
      (Apart idt intrEntryTable → v < vectorCnt → f = load32 mem (intrEntryTable + 4 * v)) := by
  refine ⟨load32 (idtDescLoop idt intrEntryTable v mem) (intrEntryTable + 4 * v), ?_,
    fun h hvec => load32_idtDescLoop h (by omega) hvec⟩
  rw [idtDescInit, gateDesc_congr fun b _ _ => GateDesc.store_of_not _ (by omega)]
  exact gateDesc_idtDescLoop hv

theorem gateDesc_syscall :
    gateDesc (idtDescInit idt intrEntryTable syscallHandler mem) (idt + 8 * 0x80) =
      gateOf 3 syscallHandler.toNat :=
  gateDesc_store 3 (by decide) (by decide) syscallHandler _ _

end Table

/-! ### Ways into the kernel -/

section Enter

variable {mem : Nat → UInt8} {base cpl dpl f v : Nat}

theorem gateFor_ok {e : Event} (hv : e.vector < idtDescCnt)
    (hg : gateDesc mem (base + 8 * e.vector) = gateOf dpl f)
    (hcpl : e = .software e.vector → cpl ≤ dpl) :
    gateFor mem base idtLimit cpl e = .ok (gateOf dpl f) := by
  have hlimit : ¬ 8 * e.vector + 7 > idtLimit := by
    unfold idtLimit
    omega
  simp only [gateFor, hg]
  rw [if_neg hlimit, if_neg (by simp [gateOf]), if_neg, if_neg (by simp [gateOf])]
  rintro ⟨heq, hgt⟩
  exact absurd (hcpl heq) (Nat.not_le_of_gt hgt)

theorem enter_ok {e : Event} (hv : e.vector < idtDescCnt)
    (hg : gateDesc mem (base + 8 * e.vector) = gateOf dpl f)
    (hcpl : e = .software e.vector → cpl ≤ dpl) :
    enter mem base idtLimit cpl e = some (e.vector, gateOf dpl f) := by
  rw [enter, gateFor_ok hv hg hcpl]

theorem enter_refused (hgp : gateDesc mem (base + 8 * 13) = gateOf 0 f)
    (h : gateFor mem base idtLimit cpl (.software v) = .error 13) :
    enter mem base idtLimit cpl (.software v) = some (13, gateOf 0 f) := by
  have hfault : gateFor mem base idtLimit cpl (.exception 13) = .ok (gateOf 0 f) :=
    gateFor_ok (by decide) hgp nofun
  rw [enter, h]
  simp only [hfault]

theorem gateFor_behind (hv : idtDescCnt ≤ v) :
    gateFor mem base idtLimit cpl (.software v) = .error 13 := by
  have hlimit : 8 * v + 7 > idtLimit := by
    unfold idtLimit
    omega
  exact if_pos hlimit

theorem gateFor_privileged (hv : v < idtDescCnt) (hg : gateDesc mem (base + 8 * v) = gateOf 0 f)
    (hcpl : 0 < cpl) : gateFor mem base idtLimit cpl (.software v) = .error 13 := by
  have hlimit : ¬ 8 * v + 7 > idtLimit := by
    unfold idtLimit
    omega
  simp only [gateFor, Event.vector, hg]
  rw [if_neg hlimit, if_neg (by simp [gateOf]), if_pos ⟨trivial, hcpl⟩]

end Enter

/-- Whatever is in memory behind the `0x30` entries of `intr_entry_table`: every exception of the
processor and every vector of the two controllers enters the kernel at the stub of its own, and a
user program enters it by `int 0x80` at `syscall_handler`; any other `int` takes it to the stub for
general protection faults. -/
theorem kernel_entries (idt intrEntryTable : Nat) (syscallHandler : UInt32) (mem : Nat → UInt8)
    (h : Apart idt intrEntryTable) :
    (∀ v < vectorCnt, ∀ cpl, ∀ e ∈ [Event.exception v, .external v],
      enter (idtDescInit idt intrEntryTable syscallHandler mem) idt idtLimit cpl e =
        some (v, gateOf 0 (load32 mem (intrEntryTable + 4 * v)))) ∧
    ∀ v, enter (idtDescInit idt intrEntryTable syscallHandler mem) idt idtLimit 3 (.software v) =
      if v = 0x80 then some (0x80, gateOf 3 syscallHandler.toNat)
      else some (13, gateOf 0 (load32 mem (intrEntryTable + 4 * 13))) := by
  have hstub : ∀ v < vectorCnt,
      gateDesc (idtDescInit idt intrEntryTable syscallHandler mem) (idt + 8 * v) =
        gateOf 0 (load32 mem (intrEntryTable + 4 * v)) := by
    intro v hv
    obtain ⟨f, hg, hf⟩ := gateDesc_idtDescInit idt intrEntryTable mem syscallHandler
      (show v < idtDescCnt - 1 from Nat.lt_trans hv (by decide))
    rw [hg, hf h hv]
  refine ⟨fun v hv cpl e he => ?_, fun v => ?_⟩
  · have hlt : v < idtDescCnt := Nat.lt_trans hv (by decide)
    rcases List.mem_pair.mp he with rfl | rfl
    · exact enter_ok hlt (hstub v hv) nofun
    · exact enter_ok hlt (hstub v hv) nofun
  · by_cases hsys : v = 0x80
    · subst hsys
      rw [if_pos rfl]
      exact enter_ok (by decide) (gateDesc_syscall syscallHandler) fun _ => Nat.le_refl 3
    · rw [if_neg hsys]
      refine enter_refused (hstub 13 (by decide)) ?_
      by_cases hv : v < idtDescCnt
      · have hlt : v < idtDescCnt - 1 := by
          unfold idtDescCnt at *
          omega
        obtain ⟨f, hg, -⟩ := gateDesc_idtDescInit idt intrEntryTable mem syscallHandler hlt
        exact gateFor_privileged hv hg (by decide)
      · exact gateFor_behind (Nat.le_of_not_lt hv)

theorem kernel_entries_image :
    Apart 0xc0020000 0xc0010000 ∧
    (∀ v < vectorCnt, ∀ cpl, ∀ e ∈ [Event.exception v, .external v],
      enter (idtDescInit 0xc0020000 0xc0010000 0xc0001500 fun a => .ofNat a) 0xc0020000 idtLimit
        cpl e = some (v, gateOf 0 (load32 (fun a => .ofNat a) (0xc0010000 + 4 * v)))) ∧
    ∀ v, enter (idtDescInit 0xc0020000 0xc0010000 0xc0001500 fun a => .ofNat a) 0xc0020000 idtLimit
      3 (.software v) = if v = 0x80 then some (0x80, gateOf 3 (0xc0001500 : UInt32).toNat)
      else some (13, gateOf 0 (load32 (fun a => .ofNat a) (0xc0010000 + 4 * 13))) :=
  ⟨.inl (by decide), kernel_entries 0xc0020000 0xc0010000 0xc0001500 _ (.inl (by decide))⟩

end OriginOS.Interrupt
