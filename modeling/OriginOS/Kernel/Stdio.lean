import OriginOS.Kernel.Debug
import OriginOS.Lib.Bytes
import OriginOS.Lib.Prog
import OriginOS.Lib.Text

/-! `vsprintf` and `itoa` of `lib/stdio.c`, with `strcpy` and `strlen` of `lib/string.c`.

The format, the arguments and the output are bytes of one memory. Addresses are natural numbers: the
objects do not run over the end of the address space. -/

namespace OriginOS

open Lib

/-- The ways in which a call does not return: an `ASSERT` fails, or a loop takes more than `fuel`
passes. -/
inductive FormatStop where
  | panic (p : Panic)
  | long
deriving DecidableEq, Repr

def strcpyLoop : Nat → (Nat → UInt8) → Nat → Nat → Except FormatStop (Nat → UInt8)
  | 0, _, _, _ => .error .long
  | fuel + 1, mem, dst, src =>
    let c := mem src
    let mem := Function.update mem dst c
    if c ≠ 0 then strcpyLoop fuel mem (dst + 1) (src + 1) else .ok mem

def strcpy (fuel : Nat) (mem : Nat → UInt8) (dst src : Nat) : Except FormatStop (Nat → UInt8) :=
  if dst ≠ 0 ∧ src ≠ 0 then strcpyLoop fuel mem dst src
  else .error (.panic ⟨"./lib/string.c", 47, "strcpy", "dst_ != NULL && src_ != NULL"⟩)

def strlenLoop (mem : Nat → UInt8) : Nat → Nat → Except FormatStop Nat
  | 0, _ => .error .long
  | fuel + 1, p => if mem p ≠ 0 then strlenLoop mem fuel (p + 1) else .ok (p + 1)

def strlen (fuel : Nat) (mem : Nat → UInt8) (str : Nat) : Except FormatStop Nat :=
  if str ≠ 0 then do
    let p ← strlenLoop mem fuel str
    pure (p - str - 1)
  else .error (.panic ⟨"./lib/string.c", 54, "strlen", "str != NULL"⟩)

structure Output where
  mem : Nat → UInt8
  bufPtr : Nat

def Output.put (o : Output) (c : UInt8) : Output := ⟨Function.update o.mem o.bufPtr c, o.bufPtr + 1⟩

/-- `itoa`, with `n` calls to go. A 32-bit value has at most 32 digits. -/
def itoa (base : Nat) : Nat → Nat → Output → Output
  | 0, _, o => o
  | n + 1, value, o =>
    let m := value % base
    let i := value / base
    let o := if i ≠ 0 then itoa base n i o else o
    if m < 10 then o.put (.ofNat (m + 48)) else o.put (.ofNat (m - 10 + 65))

structure Vsprintf where
  out : Output
  indexPtr : Nat
  indexChar : UInt8
  ap : Nat

def Vsprintf.next (s : Vsprintf) : Vsprintf :=
  { s with indexPtr := s.indexPtr + 1, indexChar := s.out.mem (s.indexPtr + 1) }

/-- The `switch` for the character behind a `%`. `va_arg` adds 4 to `ap` and reads there. Other
characters than `x`, `c`, `s` and `d` are looked at again in the next pass. -/
def vsprintfSwitch (fuel : Nat) (s : Vsprintf) : Except FormatStop Vsprintf :=
  let ap := s.ap + 4
  if s.indexChar = 120 then
    let argInt : BitVec 32 := .ofNat 32 (load32 s.out.mem ap)
    .ok (Vsprintf.next { s with out := itoa 16 32 argInt.toNat s.out, ap })
  else if s.indexChar = 99 then
    .ok (Vsprintf.next { s with out := s.out.put (s.out.mem ap), ap })
  else if s.indexChar = 115 then do
    let argStr := load32 s.out.mem ap
    let mem ← strcpy fuel s.out.mem s.out.bufPtr argStr
    let len ← strlen fuel mem argStr
    pure (Vsprintf.next { s with out := ⟨mem, s.out.bufPtr + len⟩, ap })
  else if s.indexChar = 100 then
    let argInt : BitVec 32 := .ofNat 32 (load32 s.out.mem ap)
    let out := if argInt.slt 0 then itoa 10 32 (0 - argInt).toNat (s.out.put 45)
      else itoa 10 32 argInt.toNat s.out
    .ok (Vsprintf.next { s with out, ap })
  else .ok s

def vsprintfStep (fuel : Nat) (s : Vsprintf) : Except FormatStop Vsprintf :=
  if s.indexChar ≠ 37 then .ok (Vsprintf.next { s with out := s.out.put s.indexChar })
  else vsprintfSwitch fuel s.next

/-- The loop of `vsprintf`, with `n` passes to go. -/
def vsprintfLoop (fuel : Nat) : Nat → Vsprintf → Except FormatStop Vsprintf
  | 0, _ => .error .long
  | n + 1, s =>
    if s.indexChar ≠ 0 then do
      let s ← vsprintfStep fuel s
      vsprintfLoop fuel n s
    else .ok s

/-- `vsprintf`: the variables at the end of the loop, and what `strlen` then gives. -/
def vsprintf (fuel : Nat) (mem : Nat → UInt8) (str format ap : Nat) :
    Except FormatStop (Vsprintf × Except FormatStop Nat) := do
  let s ← vsprintfLoop fuel fuel ⟨⟨mem, str⟩, format, mem format, ap⟩
  pure (s, strlen fuel s.out.mem str)

/-! ### The text that is meant -/

inductive Arg where
  | hex (v : BitVec 32)
  | chr (c : UInt8)
  | str (text : List UInt8)
  | dec (v : BitVec 32)

namespace Arg

/-- The character that an argument goes with. -/
def letter : Arg → UInt8
  | hex _ => 120
  | chr _ => 99
  | str _ => 115
  | dec _ => 100

def text : Arg → List UInt8
  | hex v => numeral 16 v.toNat
  | chr c => [c]
  | str text => text
  | dec v => if v.toInt < 0 then 45 :: numeral 10 (-v.toInt).toNat else numeral 10 v.toInt.toNat

/-- What such a text is: the canonical numeral of the number, with a sign if it is negative, or the
characters. -/
def Stands : Arg → List UInt8 → Prop
  | hex v, out => IsNumeral 16 v.toNat out
  | chr c, out => out = [c]
  | str text, out => out = text
  | dec v, out => (0 ≤ v.toInt ∧ IsNumeral 10 v.toInt.toNat out) ∨
      (v.toInt < 0 ∧ ∃ digits, out = 45 :: digits ∧ IsNumeral 10 (-v.toInt).toNat digits)

/-- The argument is the word at `a`; a text is where that word points to. All its bytes are among
the bytes `safe`. -/
def At (mem : Nat → UInt8) (safe : Nat → Prop) (a : Nat) : Arg → Prop
  | hex v => (∀ b, a ≤ b → b < a + 4 → safe b) ∧ load32 mem a = v.toNat
  | chr c => safe a ∧ mem a = c
  | str text => (∀ b, a ≤ b → b < a + 4 → safe b) ∧ load32 mem a ≠ 0 ∧
      (∀ b, load32 mem a ≤ b → b ≤ load32 mem a + text.length → safe b) ∧
      StringAt mem (load32 mem a) text
  | dec v => (∀ b, a ≤ b → b < a + 4 → safe b) ∧ load32 mem a = v.toNat

theorem stands_text (a : Arg) : a.Stands a.text := by
  cases a with
  | hex v => exact isNumeral_numeral (by decide) (by decide) _
  | chr c => exact rfl
  | str text => exact rfl
  | dec v =>
    by_cases hneg : v.toInt < 0
    · rw [text, if_pos hneg]
      exact .inr ⟨hneg, _, rfl, isNumeral_numeral (by decide) (by decide) _⟩
    · rw [text, if_neg hneg]
      exact .inl ⟨by omega, isNumeral_numeral (by decide) (by decide) _⟩

theorem At.congr {mem mem' : Nat → UInt8} {safe : Nat → Prop} {a : Nat} {arg : Arg}
    (h : arg.At mem safe a) (heq : ∀ b, safe b → mem' b = mem b) : arg.At mem' safe a := by
  cases arg with
  | hex v => exact ⟨h.1, (load32_congr fun b hb hb' => heq b (h.1 b hb hb')).trans h.2⟩
  | chr c => exact ⟨h.1, (heq a h.1).trans h.2⟩
  | str text =>
    obtain ⟨hword, hne, hsafe, htext⟩ := h
    have hload : load32 mem' a = load32 mem a :=
      load32_congr fun b hb hb' => heq b (hword b hb hb')
    refine ⟨hword, hload ▸ hne, hload ▸ hsafe, hload ▸ ?_⟩
    exact htext.congr fun b hb hb' => heq b (hsafe b hb hb')
  | dec v => exact ⟨h.1, (load32_congr fun b hb hb' => heq b (h.1 b hb hb')).trans h.2⟩

end Arg

/-- The arguments follow one another behind the word at `ap`. -/
def ArgsAt (mem : Nat → UInt8) (safe : Nat → Prop) : Nat → List Arg → Prop
  | _, [] => True
  | ap, a :: args => a.At mem safe (ap + 4) ∧ ArgsAt mem safe (ap + 4) args

/-- Every `%` is followed by `x`, `c`, `s` or `d`. -/
def FormatOk (fmt : List UInt8) : Prop :=
  ∀ i : Nat, fmt[i]? = some 37 → ∃ c ∈ ([120, 99, 115, 100] : List UInt8), fmt[i + 1]? = some c

def conversions : List UInt8 → List UInt8
  | c :: k :: fmt => if c = 37 then k :: conversions fmt else conversions (k :: fmt)
  | _ => []

/-- The format with the texts of the arguments in the places of the conversions. -/
def render : List UInt8 → List Arg → List UInt8
  | c :: k :: fmt, args =>
    if c = 37 then args.head?.elim [] Arg.text ++ render fmt args.tail
    else c :: render (k :: fmt) args
  | [c], _ => [c]
  | [], _ => []

inductive Rendering : List UInt8 → List Arg → List UInt8 → Prop
  | nil : Rendering [] [] []
  | lit {c : UInt8} {fmt : List UInt8} {args : List Arg} {out : List UInt8} :
    c ≠ 37 → Rendering fmt args out → Rendering (c :: fmt) args (c :: out)
  | conv {a : Arg} {fmt : List UInt8} {args : List Arg} {out : List UInt8} :
    Rendering fmt args out → Rendering (37 :: a.letter :: fmt) (a :: args) (a.text ++ out)

theorem FormatOk.tail {c : UInt8} {fmt : List UInt8} (h : FormatOk (c :: fmt)) : FormatOk fmt :=
  fun i hi => h (i + 1) hi

theorem rendering_render (n : Nat) {fmt : List UInt8} {args : List Arg} (hn : fmt.length ≤ n)
    (hfmt : FormatOk fmt) (hargs : args.map Arg.letter = conversions fmt) :
    Rendering fmt args (render fmt args) := by
  induction n generalizing fmt args with
  | zero =>
    obtain rfl := List.eq_nil_of_length_eq_zero (Nat.le_zero.mp hn)
    obtain rfl := List.map_eq_nil_iff.mp hargs
    exact .nil
  | succ n ih =>
    match fmt, args with
    | [], args =>
      obtain rfl := List.map_eq_nil_iff.mp hargs
      exact .nil
    | [c], args =>
      obtain rfl := List.map_eq_nil_iff.mp hargs
      refine .lit (fun hc => ?_) .nil
      obtain ⟨k, -, hk⟩ := hfmt 0 (congrArg some hc)
      cases hk
    | c :: k :: fmt, args =>
      rw [List.length_cons, List.length_cons] at hn
      rw [conversions] at hargs
      rw [render]
      by_cases hc : c = 37
      · subst hc
        rw [if_pos rfl] at hargs ⊢
        cases args with
        | nil => cases hargs
        | cons a args =>
          obtain ⟨rfl, hrest⟩ := List.cons.inj hargs
          exact .conv (ih (by omega) hfmt.tail.tail hrest)
      · rw [if_neg hc] at hargs ⊢
        exact .lit hc (ih (by rw [List.length_cons]; omega) hfmt.tail hargs)

/-! ### Formats that end with `%s` -/

section Ends

variable {fmt : List UInt8}

theorem endsInString_lit {c : UInt8} (hc : c ≠ 37) :
    [37, 115] <:+ c :: fmt ↔ [37, 115] <:+ fmt := by
  rw [List.suffix_cons_iff]
  refine or_iff_right fun h => hc ?_
  exact (List.cons.inj h).1.symm

theorem endsInString_conv {a : Arg} : [37, 115] <:+ 37 :: a.letter :: fmt ↔
    (fmt = [] ∧ a.letter = 115) ∨ [37, 115] <:+ fmt := by
  have hne : a.letter ≠ 37 := by cases a <;> simp [Arg.letter]
  rw [List.suffix_cons_iff, endsInString_lit hne]
  refine or_congr ⟨fun h => ?_, ?_⟩ Iff.rfl
  · obtain ⟨-, h⟩ := List.cons.inj h
    obtain ⟨hletter, h⟩ := List.cons.inj h
    exact ⟨h.symm, hletter.symm⟩
  · rintro ⟨rfl, hletter⟩
    rw [hletter]

theorem Arg.letter_of_text_nil {a : Arg} (h : a.text = []) : a.letter = 115 := by
  cases a with
  | hex v => exact absurd h (numeral_ne_nil (by decide) _)
  | chr c => exact absurd h (List.cons_ne_nil c [])
  | str text => rfl
  | dec v =>
    rw [Arg.text] at h
    split at h
    · exact absurd h (List.cons_ne_nil _ _)
    · exact absurd h (numeral_ne_nil (by decide) _)

theorem Rendering.nil_left {args : List Arg} {out : List UInt8} (h : Rendering [] args out) :
    out = [] := by
  cases h
  rfl

/-- Nothing is put out for an empty format only, apart from conversions of empty strings. -/
theorem Rendering.eq_nil {args : List Arg} {out : List UInt8} (h : Rendering fmt args out)
    (hout : out = []) : fmt = [] ∨ [37, 115] <:+ fmt := by
  induction h with
  | nil => exact .inl rfl
  | lit hc _ _ => exact absurd hout (List.cons_ne_nil _ _)
  | @conv a fmt args out _ ih =>
    obtain ⟨htext, hrest⟩ := List.append_eq_nil_iff.mp hout
    refine .inr (endsInString_conv.mpr ((ih hrest).imp_left fun hnil => ?_))
    exact ⟨hnil, a.letter_of_text_nil htext⟩

end Ends

/-! ### The parts of the loop -/

section Parts

variable {mem : Nat → UInt8} {fuel p dst : Nat} {text : List UInt8} {o : Output}

theorem strcpyLoop_string {src : Nat} (h : StringAt mem src text) (hfuel : text.length < fuel)
    (hapart : ∀ b, src ≤ b → b ≤ src + text.length → ¬(dst ≤ b ∧ b ≤ dst + text.length)) :
    ∃ mem', strcpyLoop fuel mem dst src = .ok mem' ∧ Writes mem mem' dst text ∧
      mem' (dst + text.length) = 0 := by
  induction text generalizing mem dst src fuel with
  | nil =>
    obtain ⟨fuel, rfl⟩ : ∃ n, fuel = n + 1 := ⟨fuel - 1, by simp at hfuel; omega⟩
    have hzero : mem src = 0 := h
    refine ⟨Function.update mem dst 0, ?_, ⟨fun k hk => absurd hk (Nat.not_lt_zero k),
      fun b hb => ?_⟩, Function.update_self dst 0 mem⟩
    · rw [strcpyLoop, hzero]
      exact if_neg (not_not_intro rfl)
    · exact Function.update_of_ne (by simp at hb; omega) 0 mem
  | cons c text ih =>
    obtain ⟨hne, hc, hrest⟩ := h
    rw [List.length_cons] at hfuel hapart
    obtain ⟨fuel, rfl⟩ : ∃ n, fuel = n + 1 := ⟨fuel - 1, by omega⟩
    have hkept : StringAt (Function.update mem dst c) (src + 1) text :=
      hrest.congr fun b hb hb' => Function.update_of_ne
        (by rintro rfl; exact hapart b (by omega) (by omega) ⟨Nat.le_refl b, by omega⟩) c mem
    obtain ⟨mem', hrun, hwrites, hend⟩ := @ih _ fuel (dst + 1) (src + 1) hkept (by omega)
      fun b hb hb' hin => hapart b (by omega) (by omega) ⟨by omega, by omega⟩
    refine ⟨mem', ?_, (Writes.singleton c).append hwrites, ?_⟩
    · rw [strcpyLoop, hc]
      exact (if_pos hne).trans hrun
    · rwa [List.length_cons, Nat.add_comm text.length, ← Nat.add_assoc]

theorem strlenLoop_string (h : StringAt mem p text) (hfuel : text.length < fuel) :
    strlenLoop mem fuel p = .ok (p + text.length + 1) := by
  refine h.walk (motive := fun fuel p text => strlenLoop mem fuel p = .ok (p + text.length + 1))
    ?_ ?_ hfuel
  · intro fuel p hzero
    exact if_neg (not_not_intro hzero)
  · intro fuel p text hne ih
    rw [strlenLoop, if_pos hne, ih, List.length_cons]
    congr 1
    omega

theorem strlen_string (h : StringAt mem p text) (hp : p ≠ 0) (hfuel : text.length < fuel) :
    strlen fuel mem p = .ok text.length := by
  rw [strlen, if_pos hp, strlenLoop_string h hfuel]
  show Except.ok (p + text.length + 1 - p - 1) = _
  congr 1
  omega

structure Puts (o o' : Output) (text : List UInt8) : Prop where
  writes : Writes o.mem o'.mem o.bufPtr text
  bufPtr : o'.bufPtr = o.bufPtr + text.length

theorem Puts.put (o : Output) (c : UInt8) : Puts o (o.put c) [c] := ⟨.singleton c, rfl⟩

theorem Puts.append {o₁ o' : Output} {text' : List UInt8} (h : Puts o o₁ text)
    (h' : Puts o₁ o' text') : Puts o o' (text ++ text') := by
  refine ⟨h.writes.append (h.bufPtr ▸ h'.writes), ?_⟩
  rw [h'.bufPtr, h.bufPtr, List.length_append, Nat.add_assoc]

/-- The text has been put out, and the byte behind it is as it was. -/
structure PutsClean (o o' : Output) (text : List UInt8) : Prop extends Puts o o' text where
  clean : o'.mem o'.bufPtr = o.mem o'.bufPtr

theorem PutsClean.put (o : Output) (c : UInt8) : PutsClean o (o.put c) [c] := by
  refine ⟨.put o c, ?_⟩
  show Function.update o.mem o.bufPtr c (o.bufPtr + 1) = o.mem (o.bufPtr + 1)
  exact Function.update_of_ne (Nat.succ_ne_self o.bufPtr) c o.mem

theorem Puts.kept_behind {o₁ : Output} {e : Nat} (h : Puts o o₁ text) (he : o₁.bufPtr < e) :
    o₁.mem e = o.mem e := by
  rw [h.bufPtr] at he
  exact h.writes.kept e (.inr he)

theorem PutsClean.append {o₁ o' : Output} {text' : List UInt8} (h : PutsClean o o₁ text)
    (h' : PutsClean o₁ o' text') : PutsClean o o' (text ++ text') := by
  refine ⟨h.toPuts.append h'.toPuts, h'.clean.trans ?_⟩
  have hle : o₁.bufPtr ≤ o'.bufPtr := h'.bufPtr ▸ Nat.le_add_right ..
  rcases Nat.eq_or_lt_of_le hle with heq | hlt
  · rw [← heq]
    exact h.clean
  · exact h.toPuts.kept_behind hlt

theorem itoa_numeral {base n value : Nat} (hbase : 1 < base) (hn : 0 < n) (h : value < base ^ n)
    (o : Output) : PutsClean o (itoa base n value o) (numeral base value) := by
  induction n generalizing value with
  | zero => omega
  | succ n ih =>
    rw [numeral_eq hbase]
    have hdigit : ∀ o : Output, PutsClean o
        (if value % base < 10 then o.put (.ofNat (value % base + 48))
          else o.put (.ofNat (value % base - 10 + 65))) [digitByte (value % base)] := by
      intro o
      unfold digitByte
      split
      · exact .put o _
      · exact .put o _
    rw [itoa]
    by_cases hdiv : value / base = 0
    · simp only [ne_eq, hdiv, not_true_eq_false, if_false, List.nil_append]
      exact hdigit o
    · have hlt : value / base < base ^ n :=
        (Nat.div_lt_iff_lt_mul (by omega)).mpr (by rwa [← Nat.pow_succ])
      have hpos : 0 < n := by
        rcases Nat.eq_zero_or_pos n with rfl | hpos
        · exact absurd (Nat.lt_one_iff.mp hlt) hdiv
        · exact hpos
      simp only [ne_eq, hdiv, not_false_eq_true, if_true]
      exact (ih hpos hlt).append (hdigit _)

theorem itoa_word {base : Nat} (hbase : 1 < base) (v : BitVec 32) (o : Output) :
    PutsClean o (itoa base 32 v.toNat o) (numeral base v.toNat) := by
  refine itoa_numeral hbase (by decide) ?_ o
  calc v.toNat < 2 ^ 32 := v.isLt
    _ ≤ base ^ 32 := Nat.pow_le_pow_left hbase 32

theorem puts_dec (v : BitVec 32) (o : Output) :
    PutsClean o (if v.slt 0 then itoa 10 32 (0 - v).toNat (o.put 45) else itoa 10 32 v.toNat o)
      (Arg.dec v).text := by
  have hlt := v.isLt
  have hint := BitVec.toInt_eq_toNat_cond v
  have hslt : v.slt 0 = decide (v.toInt < 0) := rfl
  rw [hslt, Arg.text]
  by_cases hneg : v.toInt < 0
  · rw [if_pos hneg, if_pos (decide_eq_true hneg)]
    have habs : (-v.toInt).toNat = (0 - v).toNat := by
      rw [BitVec.toNat_sub, show (0 : BitVec 32).toNat = 0 from rfl]
      split at hint <;> omega
    rw [habs]
    exact (PutsClean.put o 45).append (itoa_word (by decide) _ _)
  · rw [if_neg hneg, if_neg (by rw [decide_eq_true_eq]; exact hneg)]
    have habs : v.toInt.toNat = v.toNat := by
      split at hint <;> omega
    rw [habs]
    exact itoa_word (by decide) v o

end Parts

/-! ### The loop -/

section Loop

variable {fuel n : Nat} {s : Vsprintf} {safe : Nat → Prop} {fmt out : List UInt8}
  {args : List Arg} {a : Arg}

theorem ArgsAt.congr {mem mem' : Nat → UInt8} {ap : Nat} (h : ArgsAt mem safe ap args)
    (heq : ∀ b, safe b → mem' b = mem b) : ArgsAt mem' safe ap args := by
  induction args generalizing ap with
  | nil => trivial
  | cons a args ih => exact ⟨h.1.congr heq, ih h.2⟩

/-- The text goes to bytes that are not safe. -/
def Room (safe : Nat → Prop) (o : Output) (text : List UInt8) : Prop :=
  ∀ b, o.bufPtr ≤ b → b ≤ o.bufPtr + text.length → ¬ safe b

theorem Room.keeps {o o' : Output} {text : List UInt8} (h : Room safe o text)
    (hputs : Puts o o' text) {b : Nat} (hb : safe b) : o'.mem b = o.mem b := by
  refine hputs.writes.kept b ?_
  by_contra hin
  exact h b (by omega) (by omega) hb

theorem Room.left {o : Output} {text : List UInt8} (h : Room safe o (text ++ out)) :
    Room safe o text :=
  fun b hb hb' => h b hb (by rw [List.length_append]; omega)

theorem Room.right {o o' : Output} {text : List UInt8} (h : Room safe o (text ++ out))
    (hputs : Puts o o' text) : Room safe o' out := by
  intro b hb hb'
  rw [hputs.bufPtr] at hb hb'
  exact h b (by omega) (by rw [List.length_append]; omega)

/-- One conversion: the text of the argument is put out, and the next argument is the next one.
Only `strcpy` writes a 0 behind the text. -/
theorem vsprintfSwitch_arg (hchar : s.indexChar = a.letter) (hat : a.At s.out.mem safe (s.ap + 4))
    (hbuf : s.out.bufPtr ≠ 0) (hroom : Room safe s.out a.text) (hfuel : a.text.length < fuel) :
    ∃ o, vsprintfSwitch fuel s = .ok (Vsprintf.next { s with out := o, ap := s.ap + 4 }) ∧
      Puts s.out o a.text ∧
      o.mem o.bufPtr = if a.letter = 115 then 0 else s.out.mem o.bufPtr := by
  unfold vsprintfSwitch
  cases a with
  | hex v =>
    rw [show s.indexChar = 120 from hchar]
    have hputs : PutsClean s.out (itoa 16 32 v.toNat s.out) _ := itoa_word (by decide) v s.out
    refine ⟨_, if_pos rfl, ?_⟩
    rw [hat.2, BitVec.ofNat_toNat, BitVec.setWidth_eq]
    exact ⟨hputs.toPuts, hputs.clean⟩
  | chr c =>
    rw [show s.indexChar = 99 from hchar]
    refine ⟨_, (if_neg (by decide)).trans (if_pos rfl), ?_⟩
    rw [hat.2]
    exact ⟨.put s.out c, (PutsClean.put s.out c).clean⟩
  | str text =>
    rw [show s.indexChar = 115 from hchar]
    obtain ⟨-, hne, hsafe, htext⟩ := hat
    obtain ⟨mem, hcopy, hwrites, hend⟩ := strcpyLoop_string htext hfuel
      fun b hb hb' hin => hroom b hin.1 hin.2 (hsafe b hb hb')
    have hputs : Puts s.out ⟨mem, s.out.bufPtr + text.length⟩ text := ⟨hwrites, rfl⟩
    refine ⟨_, (if_neg (by decide)).trans ((if_neg (by decide)).trans ((if_pos rfl).trans ?_)),
      hputs, hend⟩
    have hkept : StringAt mem (load32 s.out.mem (s.ap + 4)) text :=
      htext.congr fun b hb hb' => hroom.keeps hputs (hsafe b hb hb')
    have hstrcpy : strcpy fuel s.out.mem s.out.bufPtr (load32 s.out.mem (s.ap + 4)) = .ok mem :=
      (if_pos ⟨hbuf, hne⟩).trans hcopy
    dsimp only
    rw [hstrcpy, except_ok_bind, strlen_string hkept hne hfuel]
    rfl
  | dec v =>
    rw [show s.indexChar = 100 from hchar]
    refine ⟨_, (if_neg (by decide)).trans ((if_neg (by decide)).trans ((if_neg (by decide)).trans
      (if_pos rfl))), ?_⟩
    rw [hat.2, BitVec.ofNat_toNat, BitVec.setWidth_eq]
    exact ⟨(puts_dec v s.out).toPuts, (puts_dec v s.out).clean⟩

/-- The byte behind the output, if the format does not end in a conversion to a string after `a`. -/
theorem Rendering.behind_conv {o₀ o o' : Output} (h : Rendering fmt args out)
    (hputs : Puts o₀ o a.text) (hputs' : Puts o o' out)
    (hbehind : o.mem o.bufPtr = if a.letter = 115 then 0 else o₀.mem o.bufPtr)
    (hsuffix : ¬[37, 115] <:+ fmt) :
    o.mem o'.bufPtr = if [37, 115] <:+ 37 :: a.letter :: fmt then 0 else o₀.mem o'.bufPtr := by
  by_cases hout : out = []
  · -- nothing follows, so the byte is the one behind the argument's text
    have hnil : fmt = [] := (h.eq_nil hout).resolve_right hsuffix
    have hptr : o'.bufPtr = o.bufPtr := by rw [hputs'.bufPtr, hout]; rfl
    rw [hptr, hbehind]
    refine if_congr ?_ rfl rfl
    rw [endsInString_conv, or_iff_left hsuffix, and_iff_right hnil]
  · have hlt : o.bufPtr < o'.bufPtr := by
      rw [hputs'.bufPtr]
      exact Nat.lt_add_of_pos_right (List.length_pos_iff.mpr hout)
    rw [hputs.kept_behind hlt, if_neg fun hends => ?_]
    rcases endsInString_conv.mp hends with ⟨rfl, -⟩ | hends
    · exact hout h.nil_left
    · exact hsuffix hends

theorem vsprintfLoop_rendering (h : Rendering fmt args out)
    (hfmt : StringAt s.out.mem s.indexPtr fmt)
    (hsafe : ∀ b, s.indexPtr ≤ b → b ≤ s.indexPtr + fmt.length → safe b)
    (hargs : ArgsAt s.out.mem safe s.ap args) (hchar : s.indexChar = s.out.mem s.indexPtr)
    (hbuf : s.out.bufPtr ≠ 0) (hroom : Room safe s.out out) (hfuel : out.length < fuel)
    (hn : fmt.length < n) :
    ∃ s', vsprintfLoop fuel n s = .ok s' ∧ Puts s.out s'.out out ∧
      s'.ap = s.ap + 4 * args.length ∧ s'.out.mem s'.out.bufPtr =
        if [37, 115] <:+ fmt then 0 else s.out.mem s'.out.bufPtr := by
  induction h generalizing s n with
  | nil =>
    obtain ⟨n, rfl⟩ : ∃ m, n = m + 1 := ⟨n - 1, by omega⟩
    refine ⟨s, ?_, ⟨.nil, rfl⟩, rfl, rfl⟩
    rw [vsprintfLoop, if_neg (not_not_intro (hchar.trans hfmt))]
  | @lit c fmt args out hc _ ih =>
    obtain ⟨n, rfl⟩ : ∃ m, n = m + 1 := ⟨n - 1, by omega⟩
    obtain ⟨hne, hmem, hrest⟩ := hfmt
    rw [List.length_cons] at hsafe hfuel hn
    rw [hmem] at hchar
    have hputs := Puts.put s.out c
    have hroom : Room safe s.out ([c] ++ out) := hroom
    have hkept : ∀ b, safe b → (s.out.put c).mem b = s.out.mem b := fun b => hroom.left.keeps hputs
    obtain ⟨s', hrun, hputs', hap, hend⟩ := @ih n (Vsprintf.next { s with out := s.out.put c })
      (hrest.congr fun b hb hb' => hkept b (hsafe b (by omega) (by omega)))
      (fun b hb hb' => hsafe b (by simp [Vsprintf.next] at hb; omega)
        (by simp [Vsprintf.next] at hb'; omega))
      (hargs.congr hkept) rfl (Nat.succ_ne_zero _) (hroom.right hputs) (by omega) (by omega)
    refine ⟨s', ?_, hputs.append hputs', hap, ?_⟩
    · rw [vsprintfLoop, hchar, if_pos hne, vsprintfStep, hchar, if_pos hc]
      exact hrun
    · have hlt : (s.out.put c).bufPtr ≤ s'.out.bufPtr := hputs'.bufPtr ▸ Nat.le_add_right ..
      rw [hend]
      refine if_congr (endsInString_lit hc).symm rfl ?_
      exact Function.update_of_ne (Nat.ne_of_gt (Nat.lt_of_succ_le hlt)) c s.out.mem
  | @conv a fmt args out hrend ih =>
    obtain ⟨n, rfl⟩ : ∃ m, n = m + 1 := ⟨n - 1, by omega⟩
    obtain ⟨-, hmem, -, hletter, hrest⟩ := hfmt
    rw [List.length_cons, List.length_cons] at hsafe hn
    rw [List.length_append] at hfuel
    rw [hmem] at hchar
    obtain ⟨o, hswitch, hputs, hbehind⟩ :=
      @vsprintfSwitch_arg fuel s.next safe a hletter hargs.1 hbuf hroom.left (by omega)
    have hkept : ∀ b, safe b → o.mem b = s.out.mem b := fun b => hroom.left.keeps hputs
    have hne : o.bufPtr ≠ 0 := by
      rw [hputs.bufPtr]
      simp only [Vsprintf.next]
      omega
    obtain ⟨s', hrun, hputs', hap, hend⟩ := @ih n
      (Vsprintf.next { s.next with out := o, ap := s.ap + 4 })
      (hrest.congr fun b hb hb' => hkept b (hsafe b (by omega) (by omega)))
      (fun b hb hb' => hsafe b (by simp [Vsprintf.next] at hb; omega)
        (by simp [Vsprintf.next] at hb'; omega))
      (hargs.2.congr hkept) rfl hne (hroom.right hputs) (by omega) (by omega)
    refine ⟨s', ?_, hputs.append hputs', ?_, ?_⟩
    · rw [vsprintfLoop, hchar, if_pos (by decide), vsprintfStep, hchar, if_neg (not_not_intro rfl),
        hswitch]
      exact hrun
    · rw [hap, List.length_cons]
      simp only [Vsprintf.next]
      omega
    · by_cases hsuffix : [37, 115] <:+ fmt
      · rw [hend, if_pos hsuffix, if_pos (endsInString_conv.mpr (.inr hsuffix))]
      · rw [hend, if_neg hsuffix]
        exact hrend.behind_conv hputs hputs' hbehind hsuffix

end Loop

/-- The bytes outside a buffer at `str` for a text and the 0 behind it. -/
def OutsideText (str : Nat) (text : List UInt8) (b : Nat) : Prop := b < str ∨ str + text.length < b

/-- The format and the arguments are in memory, among the bytes `safe`. -/
structure Inputs (mem : Nat → UInt8) (safe : Nat → Prop) (format ap : Nat) (fmt : List UInt8)
    (args : List Arg) : Prop where
  string : StringAt mem format fmt
  apart : ∀ b, format ≤ b → b ≤ format + fmt.length → safe b
  words : ArgsAt mem safe ap args

/-- `vsprintf` puts out the format with the texts of the arguments in it, one after the other, and
these are the numerals, characters and strings that they should be. -/
theorem vsprintf_text (mem : Nat → UInt8) (str format ap : Nat) (fmt : List UInt8)
    (args : List Arg) (hfmt : FormatOk fmt) (hkinds : args.map Arg.letter = conversions fmt)
    (hstr : str ≠ 0) (hin : Inputs mem (OutsideText str (render fmt args)) format ap fmt args) :
    (∃ n, ∀ fuel ≥ n, ∃ s len, vsprintf fuel mem str format ap = .ok (s, len) ∧
      Puts ⟨mem, str⟩ s.out (render fmt args) ∧ s.ap = ap + 4 * args.length) ∧
    ∀ a ∈ args, a.Stands a.text := by
  refine ⟨⟨fmt.length + (render fmt args).length + 1, fun fuel hfuel => ?_⟩,
    fun a _ => a.stands_text⟩
  have hroom : Room (OutsideText str (render fmt args)) ⟨mem, str⟩ (render fmt args) :=
    fun b hb hb' hout => by unfold OutsideText at hout; dsimp only at hb hb'; omega
  obtain ⟨s, hrun, hputs, hap, -⟩ := @vsprintfLoop_rendering fuel fuel
    ⟨⟨mem, str⟩, format, mem format, ap⟩ _ _ _ _
    (rendering_render fmt.length (Nat.le_refl _) hfmt hkinds) hin.string hin.apart hin.words rfl
    hstr hroom (by omega) (by omega)
  refine ⟨s, strlen fuel s.out.mem str, ?_, hputs, hap⟩
  rw [vsprintf, hrun]
  rfl

def sampleFormat : List UInt8 := [37, 100, 32, 37, 120, 37, 99, 37, 115]

/-- The least `int`, the word `0xbeef`, `A` and `ok`. -/
def sampleArgs : List Arg := [.dec 0x80000000, .hex 0xbeef, .chr 65, .str [111, 107]]

/-- The format at 100, the arguments from 200 on, and the string at 300. -/
def sampleMem : Nat → UInt8 := fun a =>
  if 100 ≤ a ∧ a < 109 then sampleFormat.getD (a - 100) 0
  else if 200 ≤ a ∧ a < 216 then
    [0, 0, 0, 0x80, 0xef, 0xbe, 0, 0, 65, 0, 0, 0, 0x2c, 1, 0, 0].getD (a - 200) 0
  else if a = 300 then 111 else if a = 301 then 107 else 0

theorem sampleInputs (text : List UInt8) :
    Inputs sampleMem (OutsideText 1000 text) 100 196 sampleFormat sampleArgs := by
  have hbelow : ∀ b, b < 1000 → OutsideText 1000 text b := fun b hb => .inl hb
  have hptr : load32 sampleMem (196 + 4 + 4 + 4 + 4) = 300 := by decide
  refine ⟨by decide, fun b _ hb => hbelow b (by simp [sampleFormat] at hb; omega), ?_⟩
  refine ⟨⟨fun b _ _ => hbelow b (by omega), by decide⟩,
    ⟨fun b _ _ => hbelow b (by omega), by decide⟩,
    ⟨hbelow _ (by decide), by decide⟩,
    ⟨fun b _ _ => hbelow b (by omega), by decide, ?_, ?_⟩, trivial⟩
  · rw [hptr]
    exact fun b _ hb => hbelow b (by simp at hb; omega)
  · rw [hptr]
    decide

/-- The text is `-2147483648 BEEFAok`. -/
theorem vsprintf_text_sample :
    (FormatOk sampleFormat ∧ sampleArgs.map Arg.letter = conversions sampleFormat) ∧
    render sampleFormat sampleArgs =
      [45, 50, 49, 52, 55, 52, 56, 51, 54, 52, 56, 32, 66, 69, 69, 70, 65, 111, 107] ∧
    ∃ n, ∀ fuel ≥ n, ∃ s len, vsprintf fuel sampleMem 1000 100 196 = .ok (s, len) ∧
      Puts ⟨sampleMem, 1000⟩ s.out (render sampleFormat sampleArgs) ∧ s.ap = 196 + 4 * 4 := by
  have hfmt : FormatOk sampleFormat := by
    have hcheck : ∀ i < 9, sampleFormat[i]? = some 37 →
        ∃ c ∈ ([120, 99, 115, 100] : List UInt8), sampleFormat[i + 1]? = some c := by decide
    exact fun i hi => hcheck i (List.getElem?_eq_some_iff.mp hi).1 hi
  exact ⟨⟨hfmt, by decide⟩, by decide +kernel, (vsprintf_text sampleMem 1000 100 196 sampleFormat
    sampleArgs hfmt (by decide) (by decide) (sampleInputs _)).1⟩

/-! ### `sprintf` -/

/-- `sprintf`. The words of `frame` are the buffer, the format and the arguments. -/
def sprintf (fuel : Nat) (mem : Nat → UInt8) (frame : Nat) :
    Except FormatStop (Nat × (Nat → UInt8)) := do
  let buf := load32 mem frame
  let format := load32 mem (frame + 4)
  let (s, len) ← vsprintf fuel mem buf format (frame + 4)
  let retval ← len
  pure (retval, s.out.mem)

/-- `sprintf` returns with the text in the buffer, up to the first 0, and with its length. -/
def Formats (mem : Nat → UInt8) (frame : Nat) (text : List UInt8) : Prop :=
  ∃ n, ∀ fuel ≥ n, ∃ retval mem', sprintf fuel mem frame = .ok (retval, mem') ∧
    StringAt mem' (load32 mem frame) text ∧ retval = text.length

section Sprintf

variable {mem : Nat → UInt8} {frame : Nat} {fmt : List UInt8} {args : List Arg}

theorem Arg.At.text_ne_zero {safe : Nat → Prop} {p : Nat} {a : Arg} (h : a.At mem safe p)
    (hchr : ∀ c, a = .chr c → c ≠ 0) : ∀ c ∈ a.text, c ≠ 0 := by
  cases a with
  | hex v => exact numeral_ne_zero (by decide) (by decide) _
  | chr c => exact List.forall_mem_singleton.mpr (hchr c rfl)
  | str text => exact (stringAt_iff.mp h.2.2.2).1
  | dec v =>
    rw [Arg.text]
    split
    · exact List.forall_mem_cons.mpr ⟨by decide, numeral_ne_zero (by decide) (by decide) _⟩
    · exact numeral_ne_zero (by decide) (by decide) _

theorem Rendering.ne_zero {safe : Nat → Prop} {ap : Nat} {out : List UInt8}
    (h : Rendering fmt args out) (hfmt : ∀ c ∈ fmt, c ≠ 0) (hargs : ArgsAt mem safe ap args)
    (hchr : ∀ c, Arg.chr c ∈ args → c ≠ 0) : ∀ c ∈ out, c ≠ 0 := by
  induction h generalizing ap with
  | nil => exact hfmt
  | lit _ _ ih =>
    obtain ⟨hne, hfmt⟩ := List.forall_mem_cons.mp hfmt
    exact List.forall_mem_cons.mpr ⟨hne, ih hfmt hargs hchr⟩
  | @conv a fmt args out _ ih =>
    have htext := hargs.1.text_ne_zero fun c ha => hchr c (ha ▸ List.mem_cons_self)
    have hout := ih (fun c hc => hfmt c (List.mem_cons_of_mem _ (List.mem_cons_of_mem _ hc)))
      hargs.2 fun c hc => hchr c (List.mem_cons_of_mem a hc)
    exact fun c hc => (List.mem_append.mp hc).elim (htext c) (hout c)

/-- The byte behind the text is a 0 after `vsprintf`. -/
def Terminated (mem : Nat → UInt8) (str : Nat) (fmt : List UInt8) (args : List Arg) : Prop :=
  [37, 115] <:+ fmt ∨ mem (str + (render fmt args).length) = 0

/-- What a call of `sprintf` is given: a format, arguments for it, and a buffer that is apart from
them and large enough. No argument is the character 0. -/
structure Call (mem : Nat → UInt8) (frame : Nat) (fmt : List UInt8) (args : List Arg) : Prop where
  format : FormatOk fmt
  kinds : args.map Arg.letter = conversions fmt
  chars : ∀ c, Arg.chr c ∈ args → c ≠ 0
  buffer : load32 mem frame ≠ 0
  inputs : Inputs mem (OutsideText (load32 mem frame) (render fmt args)) (load32 mem (frame + 4))
    (frame + 4) fmt args

theorem Call.rendering (h : Call mem frame fmt args) : Rendering fmt args (render fmt args) :=
  rendering_render fmt.length (Nat.le_refl _) h.format h.kinds

theorem Call.run (h : Call mem frame fmt args) {fuel : Nat}
    (hfuel : fmt.length + (render fmt args).length < fuel) :
    ∃ mem', sprintf fuel mem frame = (strlen fuel mem' (load32 mem frame)).map (·, mem') ∧
      (StringAt mem' (load32 mem frame) (render fmt args) ↔
        Terminated mem (load32 mem frame) fmt args) := by
  have hroom : Room (OutsideText (load32 mem frame) (render fmt args)) ⟨mem, load32 mem frame⟩
      (render fmt args) :=
    fun b hb hb' hout => by unfold OutsideText at hout; dsimp only at hb hb'; omega
  obtain ⟨s, hrun, hputs, -, hend⟩ := @vsprintfLoop_rendering fuel fuel
    ⟨⟨mem, load32 mem frame⟩, load32 mem (frame + 4), mem (load32 mem (frame + 4)), frame + 4⟩
    _ _ _ _ h.rendering h.inputs.string h.inputs.apart h.inputs.words rfl h.buffer hroom
    (by omega) (by omega)
  refine ⟨s.out.mem, ?_, ?_⟩
  · have hvsprintf : vsprintf fuel mem (load32 mem frame) (load32 mem (frame + 4)) (frame + 4) =
        .ok (s, strlen fuel s.out.mem (load32 mem frame)) := by
      rw [vsprintf, hrun]
      rfl
    rw [sprintf, hvsprintf, except_ok_bind]
    dsimp only
    cases strlen fuel s.out.mem (load32 mem frame) <;> rfl
  · have hne := h.rendering.ne_zero (stringAt_iff.mp h.inputs.string).1 h.inputs.words h.chars
    rw [stringAt_iff, and_iff_right hne, and_iff_right hputs.writes.written, ← hputs.bufPtr, hend,
      hputs.bufPtr, Terminated]
    by_cases hsuffix : [37, 115] <:+ fmt
    · simp only [hsuffix, if_true, true_or]
    · simp only [hsuffix, if_false, false_or]

theorem Call.formats (h : Call mem frame fmt args)
    (hterm : Terminated mem (load32 mem frame) fmt args) :
    Formats mem frame (render fmt args) := by
  refine ⟨fmt.length + (render fmt args).length + 1, fun fuel hfuel => ?_⟩
  obtain ⟨mem', hrun, hstring⟩ := h.run hfuel
  refine ⟨_, mem', ?_, hstring.mpr hterm, rfl⟩
  rw [hrun, strlen_string (hstring.mpr hterm) h.buffer (by omega)]
  rfl

theorem Call.not_formats (h : Call mem frame fmt args)
    (hterm : ¬ Terminated mem (load32 mem frame) fmt args) :
    ¬ Formats mem frame (render fmt args) := by
  rintro ⟨n, hformats⟩
  obtain ⟨mem', hrun, hstring⟩ :=
    @Call.run _ _ _ _ h (n + (fmt.length + (render fmt args).length + 1)) (by omega)
  obtain ⟨retval, mem'', hrun', htext, -⟩ := hformats _ (Nat.le_add_right n _)
  rw [hrun] at hrun'
  cases hlen : strlen _ mem' (load32 mem frame) with
  | error e => rw [hlen] at hrun'; cases hrun'
  | ok len =>
    rw [hlen] at hrun'
    obtain ⟨-, rfl⟩ := Prod.mk.inj (Except.ok.inj hrun')
    exact hterm (hstring.mp htext)

/-- `vsprintf` writes no 0 of its own: the text is terminated if a `%s` was last, whose `strcpy`
writes one, or if the buffer held a 0 behind the text before. -/
theorem sprintf_terminated_iff (mem : Nat → UInt8) (frame : Nat) (fmt : List UInt8)
    (args : List Arg) (h : Call mem frame fmt args) :
    Formats mem frame (render fmt args) ↔
      [37, 115] <:+ fmt ∨ mem (load32 mem frame + (render fmt args).length) = 0 := by
  constructor
  · intro hformats
    by_contra hterm
    exact h.not_formats hterm hformats
  · exact h.formats

end Sprintf

/-- The format `"%s read sector %d failed !\n"` of `ide_read`. -/
def errorFormat : List UInt8 :=
  [37, 115, 32, 114, 101, 97, 100, 32, 115, 101, 99, 116, 111, 114, 32, 37, 100, 32, 102, 97, 105,
    108, 101, 100, 32, 33, 10]

def errorArgs : List Arg := [.str [115, 100, 97], .dec 5]

/-- The format at 100, the words of the call at 200, the name at 300 and `char error[64]` at 1000,
each of whose bytes is `fill`. -/
def errorMem (fill : UInt8) : Nat → UInt8 := fun a =>
  if 100 ≤ a ∧ a < 127 then errorFormat.getD (a - 100) 0
  else if 200 ≤ a ∧ a < 216 then
    [0xe8, 3, 0, 0, 100, 0, 0, 0, 0x2c, 1, 0, 0, 5, 0, 0, 0].getD (a - 200) 0
  else if 300 ≤ a ∧ a < 303 then [115, 100, 97].getD (a - 300) 0
  else if 1000 ≤ a ∧ a < 1064 then fill else 0

theorem errorCall {fill : UInt8} (hfill : fill ∈ ([0, 0xcc] : List UInt8)) :
    Call (errorMem fill) 200 errorFormat errorArgs := by
  have hwords : ([0, 0xcc] : List UInt8).all (fun fill => decide (
      load32 (errorMem fill) 200 = 1000 ∧ load32 (errorMem fill) 204 = 100 ∧
      load32 (errorMem fill) 208 = 300 ∧ load32 (errorMem fill) 212 = 5)) = true := by decide
  have htexts : ([0, 0xcc] : List UInt8).all (fun fill => decide (
      StringAt (errorMem fill) 100 errorFormat ∧ StringAt (errorMem fill) 300 [115, 100, 97])) =
      true := by decide
  have hcheck : ∀ i < 27, errorFormat[i]? = some 37 →
      ∃ c ∈ ([120, 99, 115, 100] : List UInt8), errorFormat[i + 1]? = some c := by decide
  obtain ⟨hbuf, hfmt, hname, hlba⟩ := of_decide_eq_true (List.all_eq_true.mp hwords fill hfill)
  obtain ⟨hstring, hsda⟩ := of_decide_eq_true (List.all_eq_true.mp htexts fill hfill)
  have hbelow : ∀ b, b < 1000 → OutsideText 1000 (render errorFormat errorArgs) b :=
    fun b hb => .inl hb
  refine ⟨fun i hi => hcheck i (List.getElem?_eq_some_iff.mp hi).1 hi, by decide,
    fun c hc => by simp [errorArgs] at hc, by rw [hbuf]; decide, ?_⟩
  rw [hbuf, hfmt]
  refine ⟨hstring, fun b _ hb => hbelow b (by simp [errorFormat] at hb; omega),
    ⟨fun b _ _ => hbelow b (by omega), ?_, ?_, ?_⟩, ⟨fun b _ _ => hbelow b (by omega), ?_⟩, trivial⟩
  · rw [hname]
    decide
  · rw [hname]
    exact fun b _ hb => hbelow b (by simp at hb; omega)
  · rw [hname]
    exact hsda
  · rw [hlba]
    rfl

/-- With an `error` of 0 bytes the text is `sda read sector 5 failed !` and a newline. -/
theorem sprintf_terminated_zeroed : Call (errorMem 0) 200 errorFormat errorArgs ∧
    Formats (errorMem 0) 200 (render errorFormat errorArgs) :=
  ⟨errorCall (by decide), (sprintf_terminated_iff (errorMem 0) 200 errorFormat errorArgs
    (errorCall (by decide))).mpr (.inr (by decide +kernel))⟩

/-- `error` is not initialised. If its bytes are `0xcc`, all 64 of them are in the string. -/
theorem sprintf_unterminated : Call (errorMem 0xcc) 200 errorFormat errorArgs ∧
    ¬ Formats (errorMem 0xcc) 200 (render errorFormat errorArgs) ∧
    (sprintf 100 (errorMem 0xcc) 200).map (·.1) = .ok 64 := by
  have hcall := @errorCall 0xcc (by decide)
  refine ⟨hcall, hcall.not_formats ?_, by decide +kernel⟩
  unfold Terminated
  decide +kernel

end OriginOS
