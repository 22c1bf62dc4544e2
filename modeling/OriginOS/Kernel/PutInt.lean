import OriginOS.Kernel.Print
import OriginOS.Kernel.Stdio

/-! `put_int` of `lib/kernel/print.S`, a block of instructions at a time, and `itoa` of
`lib/stdio.c`.

The stack is left out. It holds the argument, the registers that `pushad` saves, and the byte for
`put_char`, which keeps all registers. -/

namespace OriginOS

open Lib

/-- The condition of `jl` after `cmp`, for 32-bit registers. -/
def less32 (a b : UInt32) : Prop := (a.toNat + 2 ^ 31) % 2 ^ 32 < (b.toNat + 2 ^ 31) % 2 ^ 32

instance (a b : UInt32) : Decidable (less32 a b) := inferInstanceAs (Decidable (_ < _))

namespace PutInt

inductive Label where
  | based4bits | isA2F | store | readyToPrint | skipPrefix0 | goOnSkip | full0 | putEachNum | ret
deriving DecidableEq, Repr

/-- The registers that `put_int` uses, the memory, and the bytes that `put_char` has been called
with. -/
structure State where
  label : Label
  eax : UInt32
  ebx : UInt32
  ecx : UInt32
  edx : UInt32
  edi : UInt32
  mem : UInt32 → UInt8
  sent : List UInt8

namespace State

def cl (s : State) : UInt8 := s.ecx.toUInt8

def setCl (s : State) (b : UInt8) : State :=
  { s with ecx := s.ecx &&& 0xffffff00 ||| b.toUInt32 }

end State

/-- The instructions up to the first label, with the address of `put_int_buffer` and the argument.
-/
def start (putIntBuffer num : UInt32) (mem : UInt32 → UInt8) : State where
  label := .based4bits
  eax := num
  ebx := putIntBuffer
  ecx := 8
  edx := num
  edi := 7
  mem := mem
  sent := []

/-- The instructions from a label to the next one, or to a jump. -/
def step (putIntBuffer : UInt32) (s : State) : State :=
  match s.label with
  | .based4bits =>
    let s := { s with edx := s.edx &&& 0x0000000F }
    if less32 9 s.edx then { s with label := .isA2F }
    else { s with edx := s.edx + 48, label := .store }
  | .isA2F => { s with edx := s.edx - 10 + 65, label := .store }
  | .store =>
    let s := { s with mem := Function.update s.mem (s.ebx + s.edi) s.edx.toUInt8 }
    let s := { s with edi := s.edi - 1, eax := s.eax >>> 4 }
    let s := { s with edx := s.eax, ecx := s.ecx - 1 }
    { s with label := if s.ecx ≠ 0 then .based4bits else .readyToPrint }
  | .readyToPrint => { s with edi := s.edi + 1, label := .skipPrefix0 }
  | .skipPrefix0 => { s with label := if s.edi = 8 then .full0 else .goOnSkip }
  | .goOnSkip =>
    let s := s.setCl (s.mem (putIntBuffer + s.edi))
    let s : State := { s with edi := s.edi + 1 }
    if s.cl = 48 then { s with label := .skipPrefix0 }
    else { s with edi := s.edi - 1, label := .putEachNum }
  | .full0 => { s.setCl 48 with label := .putEachNum }
  | .putEachNum =>
    let s := { s with sent := s.sent ++ [s.cl] }
    let s := { s with edi := s.edi + 1 }
    let s := s.setCl (s.mem (putIntBuffer + s.edi))
    { s with label := if less32 s.edi 8 then .putEachNum else .ret }
  | .ret => s

def Leads (putIntBuffer : UInt32) (s t : State) : Prop := ∃ n, (step putIntBuffer)^[n] s = t

section Blocks

variable {buf : UInt32} {s t u : State}

theorem Leads.of_step (h : step buf s = t) : Leads buf s t := ⟨1, h⟩

theorem Leads.next (h : Leads buf (step buf s) t) : Leads buf s t := by
  obtain ⟨n, hn⟩ := h
  exact ⟨n + 1, hn⟩

theorem Leads.trans (h : Leads buf s t) (h' : Leads buf t u) : Leads buf s u := by
  obtain ⟨n, rfl⟩ := h
  obtain ⟨m, rfl⟩ := h'
  exact ⟨m + n, Function.iterate_add_apply _ m n s⟩

theorem State.cl_setCl (s : State) (b : UInt8) : (s.setCl b).cl = b := by
  have hlow : (0xffffff00 : UInt32).toUInt8 = 0 := by decide
  rw [State.cl, State.setCl, UInt32.toUInt8_or, UInt32.toUInt8_and, hlow, UInt8.and_zero,
    UInt8.zero_or, UInt8.toUInt8_toUInt32]

theorem less32_iff {a b : UInt32} (ha : a.toNat < 2 ^ 31) (hb : b.toNat < 2 ^ 31) :
    less32 a b ↔ a.toNat < b.toNat := by
  unfold less32
  omega

theorem less32_eight {a : UInt32} (h : a.toNat < 2 ^ 31) : less32 a 8 ↔ a.toNat < 8 :=
  less32_iff h (by decide)

theorem toUInt8_low {a : UInt32} (h : a.toNat < 10) : (a + 48).toUInt8 = digitByte a.toNat := by
  rw [digitByte, if_pos h, ← UInt8.toNat_inj]
  simp

theorem toUInt8_high {a : UInt32} (h : ¬ a.toNat < 10) (h16 : a.toNat < 16) :
    (a - 10 + 65).toUInt8 = digitByte a.toNat := by
  rw [digitByte, if_neg h, ← UInt8.toNat_inj]
  simp only [UInt32.toNat_toUInt8, UInt32.toNat_add, UInt32.toNat_sub, UInt8.toNat_ofNat',
    UInt32.reduceToNat]
  omega

end Blocks

/-! ### The digits are stored -/

def passed (s : State) : State :=
  { s with
    label := if s.ecx - 1 ≠ 0 then .based4bits else .readyToPrint
    eax := s.eax >>> 4
    ecx := s.ecx - 1
    edx := s.eax >>> 4
    edi := s.edi - 1
    mem := Function.update s.mem (s.ebx + s.edi) (digitByte (s.edx.toNat % 16)) }

structure Stored (n : Nat) (s t : State) : Prop where
  label : t.label = .readyToPrint
  edi : t.edi = s.edi - UInt32.ofNat n
  sent : t.sent = s.sent
  digits : ∀ j < n, t.mem (s.ebx + (s.edi - UInt32.ofNat j)) = digitByte (s.eax.toNat / 16 ^ j % 16)
  kept : ∀ a, (∀ j < n, a ≠ s.ebx + (s.edi - UInt32.ofNat j)) → t.mem a = s.mem a

section Storing

variable {buf : UInt32} {s t : State}

theorem toNat_digit (a : UInt32) : (a &&& 0x0000000F).toNat = a.toNat % 16 := by
  rw [UInt32.toNat_and]
  exact Nat.and_two_pow_sub_one_eq_mod a.toNat 4

theorem sub_ofNat_succ (a : UInt32) (j : Nat) :
    a - 1 - UInt32.ofNat j = a - UInt32.ofNat (j + 1) := by
  rw [UInt32.ofNat_add]
  grind

theorem add_ne_add_sub {a b : UInt32} {j : Nat} (hj : j + 1 < 2 ^ 32) :
    b + a ≠ b + (a - UInt32.ofNat (j + 1)) := by
  intro h
  have h := congrArg UInt32.toNat h
  have ha := a.toNat_lt
  simp only [UInt32.toNat_sub, UInt32.toNat_add, UInt32.toNat_ofNat'] at h
  omega

theorem step_store {d : Nat} (h : s.label = .store) (hbyte : s.edx.toUInt8 = digitByte d) :
    step buf s =
      { s with
        label := if s.ecx - 1 ≠ 0 then .based4bits else .readyToPrint
        eax := s.eax >>> 4
        ecx := s.ecx - 1
        edx := s.eax >>> 4
        edi := s.edi - 1
        mem := Function.update s.mem (s.ebx + s.edi) (digitByte d) } := by
  rw [← hbyte, step, h]

theorem leads_passed (h : s.label = .based4bits) : Leads buf s (passed s) := by
  have hdigit := toNat_digit s.edx
  have hlt : (s.edx &&& 0x0000000F).toNat < 16 := by omega
  have hnine_iff : less32 9 (s.edx &&& 0x0000000F) ↔ 9 < (s.edx &&& 0x0000000F).toNat :=
    less32_iff (by decide) (by omega)
  apply Leads.next
  by_cases hnine : less32 9 (s.edx &&& 0x0000000F)
  · have hge := hnine_iff.mp hnine
    have hbyte := toUInt8_high (by omega) hlt
    rw [hdigit] at hbyte
    have hstep : step buf s = { s with edx := s.edx &&& 0x0000000F, label := .isA2F } := by
      simp only [step, h, if_pos hnine]
    rw [hstep]
    exact .next (.of_step (step_store rfl hbyte))
  · have hge := mt hnine_iff.mpr hnine
    have hbyte := toUInt8_low (show (s.edx &&& 0x0000000F).toNat < 10 by omega)
    rw [hdigit] at hbyte
    have hstep : step buf s = { s with edx := (s.edx &&& 0x0000000F) + 48, label := .store } := by
      simp only [step, h, if_neg hnine]
    rw [hstep]
    exact .of_step (step_store rfl hbyte)

theorem stored_passed (hedx : s.edx = s.eax) (hecx : s.ecx - 1 = 0) : Stored 1 s (passed s) := by
  refine ⟨if_neg (not_not_intro hecx), rfl, rfl, fun j hj => ?_, fun a ha => ?_⟩
  · obtain rfl : j = 0 := by omega
    simp [passed, hedx]
  · have hne := ha 0 (by omega)
    exact Function.update_of_ne (by simpa using hne) _ _

theorem Stored.of_passed {n : Nat} (h : Stored n (passed s) t) (hedx : s.edx = s.eax)
    (hn : n < 2 ^ 32) : Stored (n + 1) s t := by
  have hshift : ∀ j, s.ebx + (s.edi - 1 - UInt32.ofNat j) =
      s.ebx + (s.edi - UInt32.ofNat (j + 1)) := fun j => by rw [sub_ofNat_succ]
  refine ⟨h.label, h.edi.trans (sub_ofNat_succ s.edi n), h.sent, fun j hj => ?_, fun a ha => ?_⟩
  · cases j with
    | zero =>
      have hkept : t.mem (s.ebx + s.edi) = (passed s).mem (s.ebx + s.edi) := by
        apply h.kept
        intro j hj heq
        exact add_ne_add_sub (show j + 1 < 2 ^ 32 by omega) (heq.trans (hshift j))
      rw [show UInt32.ofNat 0 = 0 from rfl, UInt32.sub_zero, hkept, Nat.pow_zero, Nat.div_one,
        ← hedx]
      exact Function.update_self ..
    | succ j =>
      have hshr : (s.eax >>> 4).toNat = s.eax.toNat / 16 := by
        simp [Nat.shiftRight_eq_div_pow]
      have hdigit : t.mem (s.ebx + (s.edi - 1 - UInt32.ofNat j)) =
        digitByte ((s.eax >>> 4).toNat / 16 ^ j % 16) := h.digits j (by omega)
      rw [← hshift, hdigit, hshr, Nat.div_div_eq_div_mul, ← Nat.pow_succ']
  · rw [h.kept a fun j hj heq => ha (j + 1) (by omega) (heq.trans (hshift j))]
    have hne := ha 0 (by omega)
    exact Function.update_of_ne (by simpa using hne) _ _

variable (buf) in
theorem exists_stored {n : Nat} (hlabel : s.label = .based4bits) (hedx : s.edx = s.eax)
    (hecx : s.ecx = UInt32.ofNat (n + 1)) (hn : n + 1 < 2 ^ 32) :
    ∃ t, Leads buf s t ∧ Stored (n + 1) s t := by
  induction n generalizing s with
  | zero => exact ⟨passed s, leads_passed hlabel, stored_passed hedx (by rw [hecx]; rfl)⟩
  | succ n ih =>
    have hnext : s.ecx - 1 = UInt32.ofNat (n + 1) := by
      rw [hecx, UInt32.ofNat_add (n + 1) 1]
      exact UInt32.add_sub_cancel _ _
    have hne : s.ecx - 1 ≠ 0 := by
      intro hzero
      have := congrArg UInt32.toNat (hnext.symm.trans hzero)
      rw [UInt32.toNat_ofNat', UInt32.toNat_zero] at this
      omega
    obtain ⟨t, ht, hst⟩ := ih (s := passed s) (if_pos hne) rfl hnext (by omega)
    exact ⟨t, (leads_passed hlabel).trans ht, hst.of_passed hedx (by omega)⟩

end Storing

/-! ### The digits are printed -/

def bytesFrom (mem : UInt32 → UInt8) : UInt32 → Nat → List UInt8
  | _, 0 => []
  | a, n + 1 => mem a :: bytesFrom mem (a + 1) n

/-- `put_int` comes to its end from `s`, and calls `put_char` with these bytes on the way. -/
def Returns (buf : UInt32) (s : State) (text : List UInt8) : Prop :=
  ∃ t, Leads buf s t ∧ t.label = .ret ∧ t.sent = s.sent ++ text

section Printing

variable {buf : UInt32} {s t : State} {c : UInt8} {text : List UInt8} {n : Nat}

theorem Leads.returns (h : Leads buf s t) (hsent : t.sent = s.sent) (ht : Returns buf t text) :
    Returns buf s text := by
  obtain ⟨u, hu, hret, htext⟩ := ht
  exact ⟨u, h.trans hu, hret, hsent ▸ htext⟩

theorem Returns.cons (h : Returns buf (step buf s) text)
    (hsent : (step buf s).sent = s.sent ++ [c]) : Returns buf s (c :: text) := by
  obtain ⟨t, ht, hret, htext⟩ := h
  refine ⟨t, ht.next, hret, ?_⟩
  rw [htext, hsent, List.append_assoc, List.singleton_append]

theorem toNat_edi_succ {a : UInt32} (h : a.toNat < 2 ^ 31 - 1) : (a + 1).toNat = a.toNat + 1 := by
  rw [UInt32.toNat_add, UInt32.toNat_one]
  omega

variable (buf) in
theorem step_putEachNum (hlabel : s.label = .putEachNum) :
    step buf s =
      { s.setCl (s.mem (buf + (s.edi + 1))) with
        label := if less32 (s.edi + 1) 8 then .putEachNum else .ret
        edi := s.edi + 1
        sent := s.sent ++ [s.cl] } := by
  rw [step, hlabel]
  rfl

theorem returns_last (hlabel : s.label = .putEachNum) (hcl : s.cl = c) (h7 : 7 ≤ s.edi.toNat)
    (hlt : s.edi.toNat < 2 ^ 31 - 1) : Returns buf s [c] := by
  have hedi := toNat_edi_succ hlt
  have hless : ¬ less32 (s.edi + 1) 8 := by
    rw [less32_eight (by omega)]
    omega
  have hstep := step_putEachNum buf hlabel
  rw [if_neg hless, hcl] at hstep
  exact ⟨_, .of_step hstep, rfl, rfl⟩

theorem returns_putEachNum (hlabel : s.label = .putEachNum) (hcl : s.cl = c)
    (hedi : s.edi.toNat + n + 1 = 8) :
    Returns buf s (c :: bytesFrom s.mem (buf + s.edi + 1) n) := by
  induction n generalizing s c with
  | zero => exact returns_last hlabel hcl (by omega) (by omega)
  | succ n ih =>
    have hnext := toNat_edi_succ (show s.edi.toNat < 2 ^ 31 - 1 by omega)
    have hless : less32 (s.edi + 1) 8 := by
      rw [less32_eight (by omega)]
      omega
    have hstep := step_putEachNum buf hlabel
    rw [if_pos hless, hcl] at hstep
    have hrest : Returns buf (step buf s)
        (s.mem (buf + (s.edi + 1)) :: bytesFrom s.mem (buf + (s.edi + 1) + 1) n) := by
      rw [hstep]
      exact ih rfl (s.cl_setCl _) (by show (s.edi + 1).toNat + n + 1 = 8; omega)
    rw [bytesFrom, UInt32.add_assoc buf s.edi 1]
    exact hrest.cons (by rw [hstep])

theorem leads_full0 (hlabel : s.label = .skipPrefix0) (h : s.edi = 8) :
    Leads buf s { s.setCl 48 with label := .putEachNum } := by
  apply Leads.next
  have hskip : step buf s = { s with label := .full0 } := by
    simp only [step, hlabel, h, if_true]
  rw [hskip]
  exact .of_step rfl

theorem step_skipPrefix0 (hlabel : s.label = .skipPrefix0) (h : s.edi ≠ 8) :
    step buf s = { s with label := .goOnSkip } := by
  simp only [step, hlabel, h, if_false]

theorem leads_zero (hlabel : s.label = .skipPrefix0) (h : s.edi ≠ 8)
    (hc : s.mem (buf + s.edi) = 48) : Leads buf s
      { s.setCl (s.mem (buf + s.edi)) with edi := s.edi + 1, label := .skipPrefix0 } := by
  apply Leads.next
  rw [step_skipPrefix0 hlabel h]
  exact .of_step (if_pos ((s.cl_setCl _).trans hc))

theorem leads_first (hlabel : s.label = .skipPrefix0) (h : s.edi ≠ 8)
    (hc : s.mem (buf + s.edi) ≠ 48) : Leads buf s
      { s.setCl (s.mem (buf + s.edi)) with label := .putEachNum } := by
  apply Leads.next
  rw [step_skipPrefix0 hlabel h]
  have hgo : step buf { s with label := .goOnSkip } =
      { s.setCl (s.mem (buf + s.edi)) with edi := s.edi + 1 - 1, label := .putEachNum } :=
    if_neg fun h48 => hc ((s.cl_setCl _).symm.trans h48)
  rw [UInt32.add_sub_cancel] at hgo
  exact .of_step hgo

variable (buf) in
/-- The loop `.skip_prefix_0` and what comes after it, with `n` bytes left in the buffer. -/
theorem returns_skipPrefix0 (hlabel : s.label = .skipPrefix0) (hedi : s.edi.toNat + n = 8) :
    Returns buf s (skipZeros (bytesFrom s.mem (buf + s.edi) n)) := by
  have hzero : digitByte 0 = 48 := rfl
  induction n generalizing s with
  | zero =>
    exact (leads_full0 hlabel (UInt32.toNat_inj.mp hedi)).returns rfl
      (returns_last rfl (s.cl_setCl 48) (by show 7 ≤ s.edi.toNat; omega)
        (by show s.edi.toNat < _; omega))
  | succ n ih =>
    have hne : s.edi ≠ 8 := by
      intro h
      have : s.edi.toNat = 8 := congrArg UInt32.toNat h
      omega
    have hnext := toNat_edi_succ (show s.edi.toNat < 2 ^ 31 - 1 by omega)
    rw [bytesFrom, skipZeros, hzero]
    by_cases hc : s.mem (buf + s.edi) = 48
    · rw [if_pos hc, UInt32.add_assoc]
      exact (leads_zero hlabel hne hc).returns rfl
        (ih rfl (by show (s.edi + 1).toNat + n = 8; omega))
    · rw [if_neg hc]
      exact (leads_first hlabel hne hc).returns rfl
        (returns_putEachNum rfl (s.cl_setCl (s.mem (buf + s.edi))) hedi)

theorem Returns.stays (h : Returns buf s text) : ∃ k, ∀ n, k ≤ n →
    ((step buf)^[n] s).label = .ret ∧ ((step buf)^[n] s).sent = s.sent ++ text := by
  obtain ⟨t, ⟨k, hk⟩, hret, htext⟩ := h
  have hfix : step buf t = t := by rw [step, hret]
  refine ⟨k, fun n hn => ?_⟩
  have hn : (step buf)^[n] s = t := by
    rw [← Nat.sub_add_cancel hn, Function.iterate_add_apply, hk]
    exact Function.iterate_fixed hfix _
  rw [hn]
  exact ⟨hret, htext⟩

end Printing

/-! ### The whole function -/

theorem bytesFrom_eq (mem : UInt32 → UInt8) (a : UInt32) (n : Nat) :
    bytesFrom mem a n = (List.range n).map fun i => mem (a + UInt32.ofNat i) := by
  induction n generalizing a with
  | zero => rfl
  | succ n ih =>
    rw [bytesFrom, ih, List.range_succ_eq_map, List.map_cons, List.map_map,
      show UInt32.ofNat 0 = 0 from rfl, UInt32.add_zero]
    congr 1
    apply List.map_congr_left
    intro i _
    show mem (a + 1 + UInt32.ofNat i) = mem (a + UInt32.ofNat (i + 1))
    rw [Nat.add_comm i 1, UInt32.ofNat_add, UInt32.add_assoc]
    rfl

theorem Stored.bytesFrom_eq {buf num : UInt32} {mem : UInt32 → UInt8} {t : State}
    (h : Stored 8 (start buf num mem) t) :
    bytesFrom t.mem buf 8 = (lastDigits 16 8 num.toNat).map digitByte := by
  rw [PutInt.bytesFrom_eq, lastDigits, List.map_map]
  apply List.map_congr_left
  intro i hi
  have hoffset : ∀ i < 8, (7 : UInt32) - UInt32.ofNat (7 - i) = UInt32.ofNat i := by decide
  have hi := List.mem_range.mp hi
  have hdigit : t.mem (buf + (7 - UInt32.ofNat (7 - i))) =
    digitByte (num.toNat / 16 ^ (7 - i) % 16) := h.digits (7 - i) (by omega)
  rwa [hoffset i hi] at hdigit

theorem skipZeros_word (num : UInt32) :
    skipZeros ((lastDigits 16 8 num.toNat).map digitByte) = numeral 16 num.toNat :=
  skipZeros_lastDigits (by decide) (by decide) num.toNat_lt

/-- `put_int` passes the numeral to `put_char`, whatever the memory holds before. -/
theorem returns_start (buf num : UInt32) (mem : UInt32 → UInt8) :
    Returns buf (start buf num mem) (numeral 16 num.toNat) := by
  obtain ⟨t, ht, hst⟩ := exists_stored buf (s := start buf num mem) (n := 7)
    rfl rfl rfl (by decide)
  have hedi : t.edi + 1 = 0 := by
    rw [hst.edi]
    show (7 : UInt32) - UInt32.ofNat 8 + 1 = 0
    decide
  have hstep : step buf t = { t with edi := 0, label := .skipPrefix0 } := by
    simp only [step, hst.label, hedi]
  have hskip := returns_skipPrefix0 buf (n := 8)
    (s := { t with edi := 0, label := .skipPrefix0 }) rfl rfl
  rw [UInt32.add_zero, hst.bytesFrom_eq, skipZeros_word] at hskip
  exact (ht.trans (.of_step hstep)).returns hst.sent hskip

end PutInt

theorem putIntChars_eq_numeral (num : UInt32) : putIntChars num = numeral 16 num.toNat := by
  have hdigit : (fun d => UInt8.ofNat (if d > 9 then d - 10 + 65 else d + 48)) = digitByte := by
    funext d
    unfold digitByte
    by_cases hd : d < 10
    · rw [if_neg (by omega), if_pos hd]
    · rw [if_pos (by omega), if_neg hd]
  have hchars : putIntChars num =
      if ((lastDigits 16 8 num.toNat).dropWhile (· = 0)).map digitByte = [] then [digitByte 0]
      else ((lastDigits 16 8 num.toNat).dropWhile (· = 0)).map digitByte := by
    rw [← hdigit]
    rfl
  have hlt : ∀ d ∈ lastDigits 16 8 num.toNat, d < 36 := fun d hd =>
    Nat.lt_trans (lastDigits_lt (by decide) d hd) (by decide)
  rw [hchars, if_congr List.map_eq_nil_iff rfl rfl, ← skipZeros_map hlt]
  exact PutInt.skipZeros_word num

/-- The bytes that the blocks of `put_int` pass to `put_char` are those that the console is shown
to print. -/
theorem returns_putIntChars (buf num : UInt32) (mem : UInt32 → UInt8) :
    PutInt.Returns buf (PutInt.start buf num mem) (putIntChars num) := by
  rw [putIntChars_eq_numeral]
  exact PutInt.returns_start buf num mem

/-- `put_int` comes to its end, with the text passed to `put_char` that `itoa` writes for base 16:
the numeral of the number, with capital letters and without zeros at the front. -/
theorem put_int_agrees_with_itoa (buf num : UInt32) (mem : UInt32 → UInt8) (calls : Nat)
    (o : Output) :
    ∃ text, (∃ k, ∀ n, k ≤ n → ((PutInt.step buf)^[n] (PutInt.start buf num mem)).label = .ret ∧
        ((PutInt.step buf)^[n] (PutInt.start buf num mem)).sent = text) ∧
      PutsClean o (itoa 16 (8 + calls) num.toNat o) text ∧
      IsNumeral 16 num.toNat text ∧ (num = 0 → text = [48]) := by
  refine ⟨numeral 16 num.toNat, (PutInt.returns_start buf num mem).stays, ?_,
    isNumeral_numeral (by decide) (by decide) _, ?_⟩
  · refine itoa_numeral (by decide) (by omega) ?_ o
    calc num.toNat < 16 ^ 8 := num.toNat_lt
      _ ≤ 16 ^ (8 + calls) := Nat.pow_le_pow_right (by decide) (by omega)
  · rintro rfl
    rfl

end OriginOS
