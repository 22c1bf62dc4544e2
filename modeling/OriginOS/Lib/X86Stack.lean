import OriginOS.Lib.X86

/-! The stack of the x86 processor, and the way into an interrupt handler and back. -/

namespace OriginOS.Lib.X86

namespace Cpu

/-- The word that a push of a selector leaves at `a`. -/
def selWord (s : Cpu) (a : UInt32) (sel : UInt16) : UInt32 :=
  if s.zeroExtends then sel.toUInt32 else s.word a &&& 0xffff0000 ||| sel.toUInt32

def pushSel (s : Cpu) (sel : UInt16) : Cpu := s.push (s.selWord (s.reg .esp - 4) sel)

def setSeg (s : Cpu) (r : Seg) (sel : UInt16) : Cpu := { s with seg := Function.update s.seg r sel }

def pop (s : Cpu) (r : Reg) : Cpu := (s.drop 4).set r s.top

def popSeg (s : Cpu) (r : Seg) : Cpu := (s.drop 4).setSeg r s.top.toUInt16

def pushad (s : Cpu) : Cpu :=
  ((((((((s.push (s.reg .eax)).push (s.reg .ecx)).push (s.reg .edx)).push (s.reg .ebx)).push
    (s.reg .esp)).push (s.reg .ebp)).push (s.reg .esi)).push (s.reg .edi))

def popad (s : Cpu) : Cpu :=
  (((((((s.pop .edi).pop .esi).pop .ebp).drop 4).pop .ebx).pop .edx).pop .ecx).pop .eax

def cpl (s : Cpu) : UInt16 := s.seg .cs &&& 3

end Cpu

/-- An interrupt gate, with the stack of the inner privilege level from the task state segment. -/
structure Gate where
  cs : UInt16
  eip : UInt32
  ss0 : UInt16
  esp0 : UInt32

/-- An interrupt through a gate of privilege level 0: from an outer level the stack is changed, and
the old one is pushed first. -/
def interrupt (g : Gate) (s : Cpu) : Cpu :=
  let t := if s.cpl ≠ 0 then
      (((s.setSeg .ss g.ss0).set .esp g.esp0).pushSel (s.seg .ss)).push (s.reg .esp)
    else s
  let t := ((t.push s.eflags).pushSel (s.seg .cs)).push s.eip
  -- the flags TF, IF, NT, RF and VM are cleared
  { t.setSeg .cs g.cs with eip := g.eip, eflags := s.eflags &&& ~~~0x34300 }

/-- `iretd`. A return to an outer level pops the stack as well, and the data segment registers are
cleared whose selectors are not `usable` there. -/
def iretd (usable : UInt16 → Bool) (s : Cpu) : Cpu :=
  let eip := s.top
  let s := s.drop 4
  let cs := s.top.toUInt16
  let s := s.drop 4
  let eflags := s.top
  let s := s.drop 4
  if cs &&& 3 ≠ s.cpl then
    let esp := s.top
    let ss := (s.drop 4).top.toUInt16
    let keep (sel : UInt16) : UInt16 := if usable sel then sel else 0
    { s.set .esp esp with
      eip := eip
      eflags := eflags
      seg := fun
        | .cs => cs
        | .ss => ss
        | r => keep (s.seg r) }
  else { s.setSeg .cs cs with eip := eip, eflags := eflags }

/-! ### What is on the stack -/

def WordsAt (mem : Nat → UInt8) : Nat → List UInt32 → Prop
  | _, [] => True
  | a, w :: ws => wordAt mem a = w ∧ WordsAt mem (a + 4) ws

/-- Some words of a record at `a` are set, each by its index. -/
def storeFields (mem : Nat → UInt8) (a : Nat) (fields : List (Nat × UInt32)) : Nat → UInt8 :=
  fields.foldl (fun mem f => store32 mem (a + 4 * f.1) f.2.toNat) mem

@[irreducible] def setFields (fields : List (Nat × UInt32)) (ws : List UInt32) : List UInt32 :=
  fields.foldl (fun ws f => ws.set f.1 f.2) ws

/-- The stack that begins below `base` holds the words `ws`, the last one pushed first, and outside
of it the memory is `m`. -/
structure Stack (m : Nat → UInt8) (base : Nat) (ws : List UInt32) (s : Cpu) : Prop where
  bound : base < 2 ^ 32
  esp : (s.reg .esp).toNat + 4 * ws.length = base
  words : WordsAt s.mem (s.reg .esp).toNat ws
  kept : ∀ b, b < (s.reg .esp).toNat ∨ base ≤ b → s.mem b = m b

section Stack

variable {m mem mem' : Nat → UInt8} {a base : Nat} {ws : List UInt32} {s : Cpu} {v w : UInt32}
  {r r' : Reg}

theorem WordsAt.congr (h : WordsAt mem a ws)
    (heq : ∀ b, a ≤ b → b < a + 4 * ws.length → mem' b = mem b) : WordsAt mem' a ws := by
  induction ws generalizing a with
  | nil => trivial
  | cons w ws ih =>
    rw [List.length_cons] at heq
    refine ⟨(wordAt_congr fun b hb hb' => heq b hb (by omega)).trans h.1, ?_⟩
    exact ih h.2 fun b hb hb' => heq b (by omega) (by omega)

theorem wordsAt_append {xs ys : List UInt32} :
    WordsAt mem a (xs ++ ys) ↔ WordsAt mem a xs ∧ WordsAt mem (a + 4 * xs.length) ys := by
  induction xs generalizing a with
  | nil => exact (and_iff_right trivial).symm
  | cons x xs ih =>
    rw [List.cons_append, WordsAt, WordsAt, ih, and_assoc, List.length_cons,
      show a + 4 + 4 * xs.length = a + 4 * (xs.length + 1) by omega]

theorem exists_wordsAt (mem : Nat → UInt8) (a n : Nat) :
    ∃ ws : List UInt32, ws.length = n ∧ WordsAt mem a ws := by
  induction n generalizing a with
  | zero => exact ⟨[], rfl, trivial⟩
  | succ n ih =>
    obtain ⟨ws, hlen, hws⟩ := ih (a + 4)
    exact ⟨wordAt mem a :: ws, congrArg Nat.succ hlen, rfl, hws⟩

theorem WordsAt.get {i : Nat} (h : WordsAt mem a ws) (hi : ws[i]? = some w) :
    wordAt mem (a + 4 * i) = w := by
  induction ws generalizing a i with
  | nil => cases hi
  | cons x ws ih =>
    cases i with
    | zero => exact h.1.trans (Option.some.inj hi)
    | succ i =>
      rw [show a + 4 * (i + 1) = a + 4 + 4 * i by omega]
      exact ih h.2 hi

theorem WordsAt.store {i : Nat} (h : WordsAt mem a ws) (hi : i < ws.length) (v : UInt32) :
    WordsAt (store32 mem (a + 4 * i) v.toNat) a (ws.set i v) := by
  induction ws generalizing a i with
  | nil => cases hi
  | cons w ws ih =>
    cases i with
    | zero =>
      refine ⟨wordAt_store32_self v, h.2.congr fun b hb _ => store32_apply_of_not (by omega)⟩
    | succ i =>
      have hrest := ih h.2 (Nat.lt_of_succ_lt_succ hi)
      rw [show a + 4 + 4 * i = a + 4 * (i + 1) by omega] at hrest
      refine ⟨?_, hrest⟩
      rw [wordAt_store32_of_disjoint (by omega)]
      exact h.1

theorem setFields_nil (ws : List UInt32) : setFields [] ws = ws := by
  rw [setFields, List.foldl_nil]

theorem setFields_cons (f : Nat × UInt32) (fields : List (Nat × UInt32)) (ws : List UInt32) :
    setFields (f :: fields) ws = setFields fields (ws.set f.1 f.2) := by
  rw [setFields, setFields, List.foldl_cons]

theorem length_setFields (fields : List (Nat × UInt32)) (ws : List UInt32) :
    (setFields fields ws).length = ws.length := by
  induction fields generalizing ws with
  | nil => rw [setFields_nil]
  | cons f fields ih => rw [setFields_cons, ih, List.length_set]

theorem WordsAt.storeFields {fields : List (Nat × UInt32)} (h : WordsAt mem a ws)
    (hfields : ∀ f ∈ fields, f.1 < ws.length) :
    WordsAt (storeFields mem a fields) a (setFields fields ws) := by
  induction fields generalizing mem ws with
  | nil =>
    rw [setFields_nil]
    exact h
  | cons f fields ih =>
    obtain ⟨hf, hrest⟩ := List.forall_mem_cons.mp hfields
    rw [setFields_cons]
    exact ih (h.store hf f.2) fun g hg => by rw [List.length_set]; exact hrest g hg

@[simp] theorem push_esp : (s.push v).reg .esp = s.reg .esp - 4 := by
  rw [Cpu.push, setWord_reg, set_reg_self]

theorem push_reg (h : r ≠ .esp) : (s.push v).reg r = s.reg r := by
  rw [Cpu.push, setWord_reg, set_reg_of_ne h]

theorem push_mem : (s.push v).mem = store32 s.mem (s.reg .esp - 4).toNat v.toNat := by
  rw [Cpu.push, setWord_mem, set_mem]

theorem Stack.nil (s : Cpu) : Stack s.mem (s.reg .esp).toNat [] s :=
  ⟨(s.reg .esp).toNat_lt, rfl, trivial, fun _ _ => rfl⟩

theorem Stack.now (h : Stack m base ws s) : Stack s.mem base ws s :=
  ⟨h.bound, h.esp, h.words, fun _ _ => rfl⟩

theorem Stack.push (h : Stack m base ws s) (hroom : 4 * (ws.length + 1) ≤ base) (v : UInt32) :
    Stack m base (v :: ws) (s.push v) := by
  have hesp := h.esp
  have hsub : (s.reg .esp - 4).toNat = (s.reg .esp).toNat - 4 :=
    UInt32.toNat_sub_of_le _ _ (UInt32.le_iff_toNat_le.mpr (by simp; omega))
  refine ⟨h.bound, ?_, ?_, ?_⟩
  · rw [push_esp, hsub, List.length_cons]
    omega
  · rw [push_esp, push_mem, hsub]
    refine ⟨wordAt_store32_self v, ?_⟩
    rw [show (s.reg .esp).toNat - 4 + 4 = (s.reg .esp).toNat by omega]
    exact h.words.congr fun b hb _ => store32_apply_of_not (by omega)
  · intro b hb
    rw [push_esp, hsub] at hb
    rw [push_mem, hsub, store32_apply_of_not (by omega)]
    exact h.kept b (by omega)

theorem Stack.top (h : Stack m base (w :: ws) s) : s.top = w := h.words.1

theorem Stack.drop (h : Stack m base (w :: ws) s) : Stack s.mem base ws (s.drop 4) := by
  have hesp := h.esp
  have hbound := h.bound
  rw [List.length_cons] at hesp
  have hadd : (s.reg .esp + 4).toNat = (s.reg .esp).toNat + 4 := by
    rw [UInt32.toNat_add]
    exact Nat.mod_eq_of_lt (by simp; omega)
  have hreg : (s.drop 4).reg .esp = s.reg .esp + 4 := set_reg_self
  refine ⟨h.bound, ?_, ?_, fun b _ => ?_⟩
  · rw [hreg, hadd]
    omega
  · rw [hreg, hadd, Cpu.drop, set_mem]
    exact h.words.2
  · rw [Cpu.drop, set_mem]

theorem drop_drop (n n' : UInt32) : (s.drop n).drop n' = s.drop (n + n') := by
  simp only [Cpu.drop, Cpu.set, Function.update_self, Function.update_idem, UInt32.add_assoc]

theorem Stack.word {i : Nat} (h : Stack m base ws s) (hi : ws[i]? = some w) :
    s.word (s.reg .esp + UInt32.ofNat (4 * i)) = w := by
  have hesp := h.esp
  have hbound := h.bound
  have hlt := (List.getElem?_eq_some_iff.mp hi).1
  have hofNat : 4 * i < 2 ^ 32 := by omega
  have hadd : (s.reg .esp + UInt32.ofNat (4 * i)).toNat = (s.reg .esp).toNat + 4 * i := by
    rw [UInt32.toNat_add, UInt32.toNat_ofNat_of_lt' hofNat]
    exact Nat.mod_eq_of_lt (by omega)
  rw [Cpu.word, hadd]
  exact h.words.get hi

theorem Stack.setWord {i : Nat} (h : Stack m base ws s) (hi : i < ws.length) {p : UInt32}
    (hp : p.toNat = (s.reg .esp).toNat + 4 * i) :
    Stack (s.setWord p v).mem base (ws.set i v) (s.setWord p v) := by
  refine ⟨h.bound, ?_, ?_, fun _ _ => rfl⟩
  · rw [setWord_reg, List.length_set]
    exact h.esp
  · rw [setWord_reg, setWord_mem, hp]
    exact h.words.store hi v

theorem Stack.set (h : Stack m base ws s) (r : Reg) (hr : r ≠ .esp) (v : UInt32) :
    Stack m base ws (s.set r v) := by
  have hesp : (s.set r v).reg .esp = s.reg .esp := set_reg_of_ne hr.symm
  exact ⟨h.bound, hesp ▸ h.esp, hesp ▸ h.words, hesp ▸ h.kept⟩

theorem Stack.setSeg (h : Stack m base ws s) (sr : Seg) (sel : UInt16) :
    Stack m base ws (s.setSeg sr sel) := ⟨h.bound, h.esp, h.words, h.kept⟩

theorem Stack.agree {t : Cpu} (h : Stack m base ws s) (hesp : t.reg .esp = s.reg .esp)
    (hmem : ∀ b, (s.reg .esp).toNat ≤ b → b < base → t.mem b = s.mem b) :
    Stack t.mem base ws t := by
  refine ⟨h.bound, hesp ▸ h.esp, ?_, fun _ _ => rfl⟩
  rw [hesp]
  exact h.words.congr fun b hb hb' => hmem b hb (by rw [← h.esp]; exact hb')

theorem drop_reg {n : UInt32} (h : r ≠ .esp) : (s.drop n).reg r = s.reg r := by
  rw [Cpu.drop, set_reg_of_ne h]

@[simp] theorem drop_seg {n : UInt32} : (s.drop n).seg = s.seg := by rw [Cpu.drop, Cpu.set]

@[simp] theorem push_seg : (s.push v).seg = s.seg := by rw [Cpu.push, Cpu.setWord, Cpu.set]

@[simp] theorem pushSel_seg {sel : UInt16} : (s.pushSel sel).seg = s.seg := by
  rw [Cpu.pushSel, push_seg]

theorem pushSel_reg {sel : UInt16} (h : r ≠ .esp) : (s.pushSel sel).reg r = s.reg r := by
  rw [Cpu.pushSel, push_reg h]

theorem selWord_toUInt16 (a : UInt32) (sel : UInt16) : (s.selWord a sel).toUInt16 = sel := by
  rw [Cpu.selWord]
  split
  · exact UInt16.toUInt16_toUInt32 sel
  · rw [UInt32.toUInt16_or, UInt32.toUInt16_and, UInt16.toUInt16_toUInt32,
      show (0xffff0000 : UInt32).toUInt16 = 0 from rfl, UInt16.and_zero, UInt16.zero_or]

theorem Stack.pushSel (h : Stack m base ws s) (hroom : 4 * (ws.length + 1) ≤ base) (sel : UInt16) :
    ∃ w : UInt32, w.toUInt16 = sel ∧ Stack m base (w :: ws) (s.pushSel sel) :=
  ⟨_, selWord_toUInt16 _ sel, h.push hroom _⟩

theorem Stack.pushad (h : Stack m base ws s) (hroom : 4 * (ws.length + 8) ≤ base) :
    Stack m base (s.reg .edi :: s.reg .esi :: s.reg .ebp :: s.reg .esp :: s.reg .ebx ::
      s.reg .edx :: s.reg .ecx :: s.reg .eax :: ws) s.pushad := by
  have h₁ := h.push (by omega) (s.reg .eax)
  have h₂ := h₁.push (by simp only [List.length_cons]; omega) (s.reg .ecx)
  have h₃ := h₂.push (by simp only [List.length_cons]; omega) (s.reg .edx)
  have h₄ := h₃.push (by simp only [List.length_cons]; omega) (s.reg .ebx)
  have h₅ := h₄.push (by simp only [List.length_cons]; omega) (s.reg .esp)
  have h₆ := h₅.push (by simp only [List.length_cons]; omega) (s.reg .ebp)
  have h₇ := h₆.push (by simp only [List.length_cons]; omega) (s.reg .esi)
  exact h₇.push (by simp only [List.length_cons]; omega) (s.reg .edi)

theorem pushad_reg (h : r ≠ .esp) : s.pushad.reg r = s.reg r := by
  simp only [Cpu.pushad, push_reg h]

@[simp] theorem pushad_seg : s.pushad.seg = s.seg := by simp only [Cpu.pushad, push_seg]

theorem Stack.pop (h : Stack m base (w :: ws) s) (r : Reg) (hr : r ≠ .esp) :
    Stack s.mem base ws (s.pop r) := h.drop.set r hr _

theorem Stack.pop_self (h : Stack m base (w :: ws) s) (r : Reg) : (s.pop r).reg r = w := by
  rw [Cpu.pop, set_reg_self, h.top]

theorem pop_reg (h : r' ≠ r) (hesp : r' ≠ .esp) : (s.pop r).reg r' = s.reg r' := by
  rw [Cpu.pop, set_reg_of_ne h, drop_reg hesp]

@[simp] theorem pop_seg : (s.pop r).seg = s.seg := by rw [Cpu.pop, Cpu.set, drop_seg]

theorem Stack.popad {edi esi ebp dummy ebx edx ecx eax : UInt32}
    (h : Stack m base (edi :: esi :: ebp :: dummy :: ebx :: edx :: ecx :: eax :: ws) s) :
    Stack s.popad.mem base ws s.popad ∧ s.popad.seg = s.seg ∧ s.popad.reg .edi = edi ∧
      s.popad.reg .esi = esi ∧ s.popad.reg .ebp = ebp ∧ s.popad.reg .ebx = ebx ∧
      s.popad.reg .edx = edx ∧ s.popad.reg .ecx = ecx ∧ s.popad.reg .eax = eax := by
  have h₁ := h.pop .edi (by decide)
  have h₂ := h₁.pop .esi (by decide)
  have h₃ := h₂.pop .ebp (by decide)
  have h₄ := h₃.drop
  have h₅ := h₄.pop .ebx (by decide)
  have h₆ := h₅.pop .edx (by decide)
  have h₇ := h₆.pop .ecx (by decide)
  refine ⟨(h₇.pop .eax (by decide)).now, ?_, ?_, ?_, ?_, ?_, ?_, ?_, ?_⟩
  all_goals unfold Cpu.popad
  · simp only [pop_seg, drop_seg]
  · simp [pop_reg, drop_reg, h.pop_self]
  · simp [pop_reg, drop_reg, h₁.pop_self]
  · simp [pop_reg, drop_reg, h₂.pop_self]
  · simp [pop_reg, h₄.pop_self]
  · simp [pop_reg, h₅.pop_self]
  · simp [pop_reg, h₆.pop_self]
  · exact h₇.pop_self .eax

theorem popSeg_reg {sr : Seg} (h : r ≠ .esp) : (s.popSeg sr).reg r = s.reg r := by
  rw [Cpu.popSeg, Cpu.setSeg, drop_reg h]

theorem Stack.popSeg (h : Stack m base (w :: ws) s) (sr : Seg) :
    Stack s.mem base ws (s.popSeg sr) ∧
    (s.popSeg sr).seg = Function.update s.seg sr w.toUInt16 := by
  refine ⟨h.drop.setSeg sr _, ?_⟩
  rw [Cpu.popSeg, Cpu.setSeg, drop_seg, h.top]

end Stack

/-! ### Calls of C functions -/

/-- What a C function does between its first instruction, where the return address and then its
`args` argument words are on the stack, and its return: it may use `eax`, `ecx`, `edx` and the
argument words, and leaves the stack above them, up to `base`, as it is. -/
structure Cdecl (args base : Nat) (s t : Cpu) : Prop where
  esp : t.reg .esp = s.reg .esp + 4
  saved : ∀ r ∈ [Reg.ebx, .ebp, .esi, .edi], t.reg r = s.reg r
  seg : t.seg = s.seg
  stack : ∀ b, (s.reg .esp).toNat + 4 + 4 * args ≤ b → b < base → t.mem b = s.mem b

theorem Stack.cdecl {m : Nat → UInt8} {base : Nat} {ret : UInt32} {args ws : List UInt32}
    {s t : Cpu} (h : Stack m base (ret :: (args ++ ws)) s) (hc : Cdecl args.length base s t) :
    ∃ args' : List UInt32, args'.length = args.length ∧ Stack t.mem base (args' ++ ws) t := by
  have hdrop := h.drop
  have hesp : t.reg .esp = (s.drop 4).reg .esp := hc.esp.trans set_reg_self.symm
  have hadd : ((s.drop 4).reg .esp).toNat = (s.reg .esp).toNat + 4 := by
    have h₁ := h.esp
    have h₂ := hdrop.esp
    rw [List.length_cons] at h₁
    omega
  obtain ⟨args', hlen, hargs⟩ := exists_wordsAt t.mem (t.reg .esp).toNat args.length
  refine ⟨args', hlen, h.bound, ?_, wordsAt_append.mpr ⟨hargs, ?_⟩, fun _ _ => rfl⟩
  · rw [hesp, List.length_append, hlen, ← List.length_append]
    exact hdrop.esp
  · rw [hesp, hlen]
    have hlength := hdrop.esp
    rw [List.length_append] at hlength
    refine (wordsAt_append.mp hdrop.words).2.congr fun b hb hb' => ?_
    rw [hc.stack b (by omega) (by omega), Cpu.drop, set_mem]

/-! ### Into a handler and back -/

section Interrupt

variable {m : Nat → UInt8} {s t : Cpu} {g : Gate} {base : Nat} {usable : UInt16 → Bool}
  {eip wcs eflags esp wss : UInt32}

def Gate.stackBase (g : Gate) (s : Cpu) : Nat :=
  if s.cpl ≠ 0 then g.esp0.toNat else (s.reg .esp).toNat

/-- The words for the old stack, from an outer level only. -/
def OuterWords (s : Cpu) (outer : List UInt32) : Prop :=
  if s.cpl ≠ 0 then ∃ wss : UInt32, wss.toUInt16 = s.seg .ss ∧ outer = [s.reg .esp, wss]
  else outer = []

theorem OuterWords.length_le {outer : List UInt32} (h : OuterWords s outer) : outer.length ≤ 2 := by
  unfold OuterWords at h
  split at h
  · obtain ⟨wss, -, rfl⟩ := h
    exact Nat.le_refl 2
  · rw [h]
    exact Nat.zero_le 2

theorem interrupt_outer (g : Gate) (s : Cpu) (hroom : 8 ≤ g.stackBase s) : ∃ t outer,
    (if s.cpl ≠ 0 then
      (((s.setSeg .ss g.ss0).set .esp g.esp0).pushSel (s.seg .ss)).push (s.reg .esp)
    else s) = t ∧ OuterWords s outer ∧ Stack s.mem (g.stackBase s) outer t ∧
    (∀ r, r ≠ .esp → t.reg r = s.reg r) ∧
    (∀ r, r ≠ .ss ∨ s.cpl = 0 → t.seg r = s.seg r) := by
  unfold Gate.stackBase OuterWords at *
  by_cases hcpl : s.cpl ≠ 0
  · simp only [if_pos hcpl] at hroom ⊢
    have hstart : Stack s.mem g.esp0.toNat [] ((s.setSeg .ss g.ss0).set .esp g.esp0) := by
      have hnil := Stack.nil ((s.setSeg .ss g.ss0).set .esp g.esp0)
      rwa [set_reg_self] at hnil
    obtain ⟨wss, hwss, hstack⟩ := hstart.pushSel (by simp; omega) (s.seg .ss)
    refine ⟨_, _, rfl, ⟨wss, hwss, rfl⟩, hstack.push (by simp; omega) (s.reg .esp), ?_, ?_⟩
    · intro r hr
      rw [push_reg hr, pushSel_reg hr, set_reg_of_ne hr]
      rfl
    · intro r hr
      rw [push_seg, pushSel_seg]
      exact Function.update_of_ne (hr.resolve_right hcpl) ..
  · simp only [if_neg hcpl]
    exact ⟨s, [], rfl, rfl, .nil s, fun _ _ => rfl, fun _ _ => rfl⟩

theorem interrupt_stack (g : Gate) (s : Cpu) (hroom : 20 ≤ g.stackBase s) : ∃ wcs outer,
    wcs.toUInt16 = s.seg .cs ∧ OuterWords s outer ∧
    Stack s.mem (g.stackBase s) (s.eip :: wcs :: s.eflags :: outer) (interrupt g s) ∧
    (∀ r, r ≠ .esp → (interrupt g s).reg r = s.reg r) ∧ (interrupt g s).seg .cs = g.cs ∧
    (∀ r, r ≠ .cs → r ≠ .ss ∨ s.cpl = 0 → (interrupt g s).seg r = s.seg r) := by
  obtain ⟨t, outer, ht, houter, hstack, hreg, hseg⟩ := interrupt_outer g s (by omega)
  have hlen := houter.length_le
  have hflags := hstack.push (by omega) s.eflags
  obtain ⟨wcs, hwcs, hcs⟩ := hflags.pushSel (by simp only [List.length_cons]; omega) (s.seg .cs)
  have heip := hcs.push (by simp only [List.length_cons]; omega) s.eip
  have heq : interrupt g s = { (((t.push s.eflags).pushSel (s.seg .cs)).push s.eip).setSeg .cs g.cs
      with eip := g.eip, eflags := s.eflags &&& ~~~0x34300 } := by
    rw [interrupt, ht]
  refine ⟨wcs, outer, hwcs, houter, ?_, ?_, ?_, ?_⟩
  · rw [heq]
    exact ⟨heip.bound, heip.esp, heip.words, heip.kept⟩
  · intro r hr
    rw [heq]
    show (((t.push s.eflags).pushSel (s.seg .cs)).push s.eip).reg r = _
    rw [push_reg hr, pushSel_reg hr, push_reg hr, hreg r hr]
  · rw [heq]
    exact Function.update_self Seg.cs g.cs (((t.push s.eflags).pushSel (s.seg .cs)).push s.eip).seg
  · intro r hcs' hss
    rw [heq]
    show Function.update (((t.push s.eflags).pushSel (s.seg .cs)).push s.eip).seg .cs g.cs r = _
    rw [Function.update_of_ne hcs', push_seg, pushSel_seg, push_seg, hseg r hss]

theorem iretd_inner (h : Stack m base [eip, wcs, eflags] t) (hcpl : wcs.toUInt16 &&& 3 = t.cpl) :
    (iretd usable t).eip = eip ∧ (iretd usable t).eflags = eflags ∧
    ((iretd usable t).reg .esp).toNat = base ∧
    (∀ r, r ≠ .esp → (iretd usable t).reg r = t.reg r) ∧
    (iretd usable t).seg .cs = wcs.toUInt16 ∧
    (∀ r, r ≠ .cs → (iretd usable t).seg r = t.seg r) := by
  have hcs : (t.drop 4).top = wcs := h.drop.top
  have hflags : ((t.drop 4).drop 4).top = eflags := h.drop.drop.top
  have heq : iretd usable t = { (((t.drop 4).drop 4).drop 4).setSeg .cs wcs.toUInt16 with
      eip := eip, eflags := eflags } := by
    rw [iretd]
    dsimp only
    rw [h.top, hcs, hflags, if_neg]
    rw [not_not, hcpl]
    simp only [Cpu.cpl, drop_seg]
  rw [heq]
  have hseg : (((t.drop 4).drop 4).drop 4).seg = t.seg := by rw [drop_seg, drop_seg, drop_seg]
  refine ⟨rfl, rfl, h.drop.drop.drop.esp, ?_, ?_, ?_⟩
  · intro r hr
    show (((t.drop 4).drop 4).drop 4).reg r = t.reg r
    rw [drop_reg hr, drop_reg hr, drop_reg hr]
  · exact Function.update_self Seg.cs wcs.toUInt16 (((t.drop 4).drop 4).drop 4).seg
  · intro r hr
    show Function.update (((t.drop 4).drop 4).drop 4).seg .cs wcs.toUInt16 r = t.seg r
    rw [Function.update_of_ne hr, hseg]

theorem iretd_outer (h : Stack m base [eip, wcs, eflags, esp, wss] t)
    (hcpl : wcs.toUInt16 &&& 3 ≠ t.cpl)
    (husable : ∀ r, r ≠ .cs → r ≠ .ss → usable (t.seg r) = true ∨ t.seg r = 0) :
    (iretd usable t).eip = eip ∧ (iretd usable t).eflags = eflags ∧
    (iretd usable t).reg .esp = esp ∧
    (∀ r, r ≠ .esp → (iretd usable t).reg r = t.reg r) ∧
    (iretd usable t).seg .cs = wcs.toUInt16 ∧ (iretd usable t).seg .ss = wss.toUInt16 ∧
    (∀ r, r ≠ .cs → r ≠ .ss → (iretd usable t).seg r = t.seg r) := by
  have hcs : (t.drop 4).top = wcs := h.drop.top
  have hflags : ((t.drop 4).drop 4).top = eflags := h.drop.drop.top
  have hesp : (((t.drop 4).drop 4).drop 4).top = esp := h.drop.drop.drop.top
  have hss : ((((t.drop 4).drop 4).drop 4).drop 4).top = wss := h.drop.drop.drop.drop.top
  have hcond : wcs.toUInt16 &&& 3 ≠ (((t.drop 4).drop 4).drop 4).cpl := by
    simpa only [Cpu.cpl, drop_seg] using hcpl
  have hkeep : ∀ r, r ≠ .cs → r ≠ .ss → (if usable (t.seg r) then t.seg r else 0) = t.seg r := by
    intro r hr hr'
    rcases husable r hr hr' with hu | hz
    · rw [if_pos hu]
    · rw [hz]
      split <;> rfl
  unfold iretd
  dsimp only
  rw [h.top, hcs, hflags, hesp, hss, if_pos hcond]
  refine ⟨rfl, rfl, ?_, ?_, rfl, rfl, ?_⟩
  · exact Function.update_self Reg.esp esp (((t.drop 4).drop 4).drop 4).reg
  · intro r hr
    show ((((t.drop 4).drop 4).drop 4).set .esp esp).reg r = t.reg r
    rw [set_reg_of_ne hr, drop_reg hr, drop_reg hr, drop_reg hr]
  · intro r hr hr'
    have hk := hkeep r hr hr'
    cases r with
    | cs => exact absurd rfl hr
    | ss => exact absurd rfl hr'
    | ds => simpa only [drop_seg] using hk
    | es => simpa only [drop_seg] using hk
    | fs => simpa only [drop_seg] using hk
    | gs => simpa only [drop_seg] using hk

theorem iretd_spec {outer : Bool}
    (h : Stack m base (eip :: wcs :: eflags :: if outer then [esp, wss] else []) t)
    (houter : outer = true ↔ wcs.toUInt16 &&& 3 ≠ t.cpl)
    (husable : outer = true → ∀ r, r ≠ .cs → r ≠ .ss → usable (t.seg r) = true ∨ t.seg r = 0) :
    (iretd usable t).eip = eip ∧ (iretd usable t).eflags = eflags ∧
    (if outer then (iretd usable t).reg .esp = esp else ((iretd usable t).reg .esp).toNat = base) ∧
    (∀ r, r ≠ .esp → (iretd usable t).reg r = t.reg r) ∧
    (iretd usable t).seg .cs = wcs.toUInt16 ∧
    (iretd usable t).seg .ss = (if outer then wss.toUInt16 else t.seg .ss) ∧
    (∀ r, r ≠ .cs → r ≠ .ss → (iretd usable t).seg r = t.seg r) := by
  cases outer with
  | false =>
    have hlevel := Decidable.not_not.mp fun hne => absurd (houter.mpr hne) (by decide)
    obtain ⟨heip, heflags, hesp, hreg, hcs, hseg⟩ := @iretd_inner _ _ base usable _ _ _ h hlevel
    exact ⟨heip, heflags, hesp, hreg, hcs, hseg .ss (by decide), fun r hr _ => hseg r hr⟩
  | true =>
    obtain ⟨heip, heflags, hesp, hreg, hcs, hss, hseg⟩ :=
      iretd_outer h (houter.mp rfl) (husable rfl)
    exact ⟨heip, heflags, hesp, hreg, hcs, hss, hseg⟩

end Interrupt

end OriginOS.Lib.X86
