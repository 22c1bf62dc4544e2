import OriginOS.Lib.Prog
import OriginOS.Lib.System
import Mathlib.Logic.Function.Basic

/-! `put_char` of `lib/kernel/print.S` and what is built on it.

The cursor is in two registers of the CRT controller. Video memory is reached through `gs`, whose
segment has the limit that `VIDDEO_DESC` of `boot/loader.S` gives it, and, to roll the screen,
through the flat data segment. The registers `bx` and `dx` are 16-bit, and `jl` compares signed
numbers. -/

namespace OriginOS

open Lib

inductive ScreenEvent where
  | write (offset : Nat) (byte : UInt8)
  | roll
deriving DecidableEq, Repr

/-- The CRT controller's registers `0x0e` and `0x0f`, the bytes of video memory, and what has been
done to the screen so far. -/
structure Console where
  high : UInt8
  low : UInt8
  vram : Nat → UInt8
  events : List ScreenEvent

def Console.cursor (s : Console) : Nat := 256 * s.high.toNat + s.low.toNat

/-- An access behind the limit of its segment. `general_intr_handler` prints the name of the
exception and does not return. -/
inductive Fault where
  | generalProtection
deriving DecidableEq, Repr

abbrev Print (α : Type) := Prog Console Fault α

/-- The last offset of the video segment: eight pages. -/
def videoLimit : Nat := 0x7fff

/-- The condition of `jl` after `cmp`, for 16-bit registers. -/
def less16 (a b : Nat) : Prop := (a + 2 ^ 15) % 2 ^ 16 < (b + 2 ^ 15) % 2 ^ 16

instance (a b : Nat) : Decidable (less16 a b) := inferInstanceAs (Decidable (_ < _))

namespace Print

def store (offset : Nat) (byte : UInt8) : Print Unit := do
  let s ← Prog.read
  Prog.write { s with
    vram := Function.update s.vram offset byte
    events := s.events ++ [.write offset byte] }

def storeGs (offset : Nat) (byte : UInt8) : Print Unit := do
  if offset > videoLimit then Prog.stop .generalProtection
  store offset byte

def setCursor (bx : Nat) : Print Unit := do
  let s ← Prog.read
  Prog.write { s with high := .ofNat (bx / 2 ^ 8), low := .ofNat bx }

/-- `rep movsd` with `ecx` to go, the offsets in video memory. -/
def repMovsd : Nat → Nat → Nat → Print Unit
  | 0, _, _ => pure ()
  | ecx + 1, esi, edi => do
    let s ← Prog.read
    store edi (s.vram esi)
    store (edi + 1) (s.vram (esi + 1))
    store (edi + 2) (s.vram (esi + 2))
    store (edi + 3) (s.vram (esi + 3))
    repMovsd ecx (esi + 4) (edi + 4)

def cls : Nat → Nat → Print Unit
  | 0, _ => pure ()
  | ecx + 1, ebx => do
    -- `mov word [gs:ebx], 0x0720`
    if ebx + 1 > videoLimit then Prog.stop .generalProtection
    store ebx 0x20
    store (ebx + 1) 0x07
    cls ecx (ebx + 2)

def rollScreen : Print Unit := do
  let s ← Prog.read
  Prog.write { s with events := s.events ++ [.roll] }
  repMovsd 960 0xa0 0
  cls 80 3840
  setCursor 1920

def isLineFeed (bx : Nat) : Print Unit := do
  let dx := bx % 80
  let bx := (bx + 2 ^ 16 - dx) % 2 ^ 16
  let bx := (bx + 80) % 2 ^ 16
  if less16 bx 2000 then setCursor bx else rollScreen

def isBackspace (bx : Nat) : Print Unit := do
  let bx := (bx + 2 ^ 16 - 1) % 2 ^ 16
  let bx := bx * 2 % 2 ^ 16
  storeGs bx 0x20
  let bx := (bx + 1) % 2 ^ 16
  storeGs bx 0x07
  setCursor (bx / 2)

def putOther (cl : UInt8) (bx : Nat) : Print Unit := do
  let bx := bx * 2 % 2 ^ 16
  storeGs bx cl
  let bx := (bx + 1) % 2 ^ 16
  storeGs bx 0x07
  let bx := bx / 2
  let bx := (bx + 1) % 2 ^ 16
  if less16 bx 2000 then setCursor bx else isLineFeed bx

end Print

def putChar (c : UInt8) : Print Unit := do
  let s ← Prog.read
  let bx := s.cursor
  if c = 0x0d then Print.isLineFeed bx
  else if c = 0x0a then Print.isLineFeed bx
  else if c = 0x08 then Print.isBackspace bx
  else Print.putOther c bx

/-- `put_str`, for the bytes before the first zero. -/
def putStr : List UInt8 → Print Unit
  | [] => pure ()
  | c :: str => do
    putChar c
    putStr str

/-- The characters of `put_int`: the hexadecimal digits from the first that is not 0 on. -/
def putIntChars (num : UInt32) : List UInt8 :=
  let digits := (List.range 8).map fun k => num.toNat / 16 ^ (7 - k) % 16
  let chars := (digits.dropWhile (· = 0)).map fun d =>
    UInt8.ofNat (if d > 9 then d - 10 + 65 else d + 48)
  if chars = [] then [48] else chars

def putInt (num : UInt32) : Print Unit := putStr (putIntChars num)

/-! ### One call -/

def ScreenEvent.OnScreen : ScreenEvent → Prop
  | write offset _ => offset < 4000
  | roll => True

/-- The character is not one of the three that move the cursor only. -/
def Ordinary (c : UInt8) : Prop := c ≠ 0x0d ∧ c ≠ 0x0a ∧ c ≠ 0x08

instance (c : UInt8) : Decidable (Ordinary c) := inferInstanceAs (Decidable (_ ∧ _))

/-- The screen with the character that the call is about to show. -/
def shown (c : UInt8) (s : Console) : Nat → UInt8 :=
  if Ordinary c then
    Function.update (Function.update s.vram (2 * s.cursor) c) (2 * s.cursor + 1) 0x07
  else s.vram

/-- Lines 1 to 24 of `v` have become lines 0 to 23, and line 24 is blank. -/
structure Rolled (v : Nat → UInt8) (s : Console) : Prop where
  lines : ∀ a < 3840, s.vram a = v (a + 160)
  blank : ∀ k < 80, s.vram (3840 + 2 * k) = 0x20 ∧ s.vram (3840 + 2 * k + 1) = 0x07
  cursor : s.cursor = 1920

structure PutOk (c : UInt8) (s t : Console) : Prop where
  cursor : t.cursor < 2000
  events : ∃ ev, t.events = s.events ++ ev ∧ (∀ e ∈ ev, e.OnScreen) ∧
    (ScreenEvent.roll ∈ ev → Rolled (shown c s) t)

/-! ### The parts of `put_char` -/

structure Draws (lo hi : Nat) (s t : Console) : Prop where
  high : t.high = s.high
  low : t.low = s.low
  kept : ∀ a, a < lo ∨ hi ≤ a → t.vram a = s.vram a
  events : ∃ ev, t.events = s.events ++ ev ∧ ∀ e ∈ ev, ∃ o b, e = .write o b ∧ o < hi

theorem Draws.refl (lo hi : Nat) (s : Console) : Draws lo hi s s :=
  ⟨rfl, rfl, fun _ _ => rfl, [], by simp, by simp⟩

theorem Draws.trans {lo mid hi : Nat} {s t u : Console} (h : Draws lo mid s t)
    (h' : Draws mid hi t u) (hl : lo ≤ mid) (hh : mid ≤ hi) : Draws lo hi s u := by
  obtain ⟨ev, hev, hin⟩ := h.events
  obtain ⟨ev', hev', hin'⟩ := h'.events
  refine ⟨h'.high.trans h.high, h'.low.trans h.low, fun a ha => ?_, ev ++ ev', ?_, ?_⟩
  · rw [h'.kept a (by omega), h.kept a (by omega)]
  · rw [hev', hev, List.append_assoc]
  · intro e he
    rcases List.mem_append.mp he with he | he
    · obtain ⟨o, b, rfl, ho⟩ := hin e he
      exact ⟨o, b, rfl, by omega⟩
    · exact hin' e he

theorem Draws.cursor {lo hi : Nat} {s t : Console} (h : Draws lo hi s t) : t.cursor = s.cursor := by
  rw [Console.cursor, Console.cursor, h.high, h.low]

namespace Print

def stored (offset : Nat) (byte : UInt8) (s : Console) : Console :=
  { s with
    vram := Function.update s.vram offset byte
    events := s.events ++ [.write offset byte] }

theorem storeGs_eq {offset : Nat} (byte : UInt8) (s : Console) (h : offset ≤ videoLimit) :
    storeGs offset byte s = .ok ((), stored offset byte s) := by
  unfold storeGs
  rw [if_neg (by omega)]
  rfl

theorem draws_stored (offset : Nat) (byte : UInt8) (s : Console) :
    Draws offset (offset + 1) s (stored offset byte s) := by
  refine ⟨rfl, rfl, fun a ha => ?_, [.write offset byte], rfl, ?_⟩
  · exact Function.update_of_ne (by omega) _ _
  · simp

theorem cursor_setCursor {bx : Nat} (s : Console) (h : bx < 2 ^ 16) :
    Console.cursor { s with high := .ofNat (bx / 2 ^ 8), low := .ofNat bx } = bx := by
  simp only [Console.cursor, UInt8.toNat_ofNat']
  omega

/-- The loop copies upwards in memory, and a dword is read before the one 160 bytes before it is
written. -/
theorem repMovsd_spec (ecx esi edi : Nat) (s : Console) (h : edi + 4 ≤ esi) :
    ∃ t, repMovsd ecx esi edi s = .ok ((), t) ∧ Draws edi (edi + 4 * ecx) s t ∧
      ∀ a, a < 4 * ecx → t.vram (edi + a) = s.vram (esi + a) := by
  induction ecx generalizing esi edi s with
  | zero => exact ⟨s, rfl, Draws.refl _ _ s, by simp⟩
  | succ ecx ih =>
    let u := stored (edi + 3) (s.vram (esi + 3)) (stored (edi + 2) (s.vram (esi + 2))
      (stored (edi + 1) (s.vram (esi + 1)) (stored edi (s.vram esi) s)))
    have draws : Draws edi (edi + 4) s u := by
      refine Draws.trans ?_ (draws_stored (edi + 3) _ _) (by omega) (by omega)
      refine Draws.trans ?_ (draws_stored (edi + 2) _ _) (by omega) (by omega)
      exact (draws_stored edi _ s).trans (draws_stored (edi + 1) _ _) (by omega) (by omega)
    obtain ⟨t, ht, hd, hc⟩ := ih (esi + 4) (edi + 4) u (by omega)
    refine ⟨t, ht, ?_, fun a ha => ?_⟩
    · have := draws.trans hd (by omega) (by omega)
      rwa [show edi + 4 + 4 * ecx = edi + 4 * (ecx + 1) by omega] at this
    · by_cases hlow : a < 4
      · rw [hd.kept _ (by omega)]
        have : a = 0 ∨ a = 1 ∨ a = 2 ∨ a = 3 := by omega
        rcases this with rfl | rfl | rfl | rfl <;> simp [u, stored]
      · have := hc (a - 4) (by omega)
        rw [show edi + 4 + (a - 4) = edi + a by omega, show esi + 4 + (a - 4) = esi + a by omega]
          at this
        rw [this, draws.kept _ (by omega)]

theorem cls_spec (ecx ebx : Nat) (s : Console) (h : ebx + 2 * ecx ≤ videoLimit) :
    ∃ t, cls ecx ebx s = .ok ((), t) ∧ Draws ebx (ebx + 2 * ecx) s t ∧
      ∀ k < ecx, t.vram (ebx + 2 * k) = 0x20 ∧ t.vram (ebx + 2 * k + 1) = 0x07 := by
  induction ecx generalizing ebx s with
  | zero => exact ⟨s, rfl, Draws.refl _ _ s, by simp⟩
  | succ ecx ih =>
    let u := stored (ebx + 1) 0x07 (stored ebx 0x20 s)
    have draws : Draws ebx (ebx + 2) s u :=
      (draws_stored ebx _ s).trans (draws_stored (ebx + 1) _ _) (by omega) (by omega)
    obtain ⟨t, ht, hd, hc⟩ := ih (ebx + 2) u (by omega)
    refine ⟨t, ?_, ?_, fun k hk => ?_⟩
    · unfold cls
      rw [if_neg (by omega)]
      exact ht
    · have := draws.trans hd (by omega) (by omega)
      rwa [show ebx + 2 + 2 * ecx = ebx + 2 * (ecx + 1) by omega] at this
    · cases k with
      | zero =>
        rw [hd.kept _ (by omega), hd.kept _ (by omega)]
        simp [u, stored]
      | succ k =>
        rw [show ebx + 2 * (k + 1) = ebx + 2 + 2 * k by omega]
        exact hc k (by omega)

end Print

structure Drawn (s t : Console) : Prop where
  cursor : t.cursor = s.cursor
  events : ∃ ev, t.events = s.events ++ ev ∧ (∀ e ∈ ev, e.OnScreen) ∧ ScreenEvent.roll ∉ ev

theorem Draws.drawn {lo hi : Nat} {s t : Console} (h : Draws lo hi s t) (hi4 : hi ≤ 4000) :
    Drawn s t := by
  obtain ⟨ev, hev, hin⟩ := h.events
  refine ⟨h.cursor, ev, hev, fun e he => ?_, fun hr => ?_⟩
  · obtain ⟨o, b, rfl, ho⟩ := hin e he
    exact Nat.lt_of_lt_of_le ho hi4
  · obtain ⟨o, b, hw, -⟩ := hin _ hr
    cases hw

theorem Drawn.putOk_setCursor {s t : Console} (c : UInt8) (h : Drawn s t) {bx : Nat}
    (hb : bx < 2000) :
    PutOk c s { t with high := .ofNat (bx / 2 ^ 8), low := .ofNat bx } := by
  obtain ⟨ev, hev, hin, hroll⟩ := h.events
  refine ⟨?_, ev, hev, hin, fun hr => absurd hr hroll⟩
  rw [Print.cursor_setCursor t (by omega)]
  exact hb

theorem Drawn.rollScreen_spec {s t : Console} {c : UInt8} (h : Drawn s t)
    (hv : t.vram = shown c s) :
    ∃ u, Print.rollScreen t = .ok ((), u) ∧ u.cursor = 1920 ∧ PutOk c s u := by
  let r : Console := { t with events := t.events ++ [.roll] }
  obtain ⟨m, hm, hmd, hcopy⟩ := Print.repMovsd_spec 960 0xa0 0 r (by omega)
  obtain ⟨b, hb, hbd, hblank⟩ := Print.cls_spec 80 3840 m (by decide)
  have hrun : Print.rollScreen t = Print.setCursor 1920 b := by
    unfold Print.rollScreen
    have hread : (Prog.read : Print Console) t = .ok (t, t) := rfl
    have hwrite : (Prog.write r : Print Unit) t = .ok ((), r) := rfl
    rw [bind_of_ok hread, bind_of_ok hwrite, bind_of_ok hm, bind_of_ok hb]
  let u : Console := { b with high := .ofNat (1920 / 2 ^ 8), low := .ofNat 1920 }
  have hcur : u.cursor = 1920 := Print.cursor_setCursor b (by decide)
  refine ⟨u, hrun, hcur, by omega, ?_⟩
  obtain ⟨ev, hev, hin, -⟩ := h.events
  obtain ⟨ev₁, hev₁, hin₁, -⟩ := (hmd.drawn (by omega)).events
  obtain ⟨ev₂, hev₂, hin₂, -⟩ := (hbd.drawn (by omega)).events
  refine ⟨ev ++ [.roll] ++ ev₁ ++ ev₂, ?_, ?_, fun _ => ⟨fun a ha => ?_, fun k hk => ?_, hcur⟩⟩
  · show b.events = _
    rw [hev₂, hev₁]
    show t.events ++ [.roll] ++ ev₁ ++ ev₂ = _
    rw [hev]
    simp only [List.append_assoc]
  · intro e he
    simp only [List.mem_append, List.mem_singleton] at he
    rcases he with ((he | rfl) | he) | he
    · exact hin e he
    · exact trivial
    · exact hin₁ e he
    · exact hin₂ e he
  · -- Lines 0 to 23 are not touched any more when line 24 is cleared.
    have := hcopy a (by omega)
    rw [Nat.zero_add] at this
    rw [show u.vram a = b.vram a from rfl, hbd.kept a (by omega), this, Nat.add_comm 0xa0 a, ← hv]
  · exact hblank k hk

theorem less16_iff {a : Nat} (h : a < 2 ^ 15) : less16 a 2000 ↔ a < 2000 := by
  unfold less16
  omega

/-- The cursor that a new line from position `n` leads to. -/
def newLine (n : Nat) : Nat := if n - n % 80 + 80 < 2000 then n - n % 80 + 80 else 1920

theorem Drawn.isLineFeed_spec {s t : Console} {c : UInt8} (h : Drawn s t) (hv : t.vram = shown c s)
    {bx : Nat} (hb : bx ≤ 2000) :
    ∃ u, Print.isLineFeed bx t = .ok ((), u) ∧ u.cursor = newLine bx ∧ PutOk c s u := by
  have hline : (bx + 2 ^ 16 - bx % 80) % 2 ^ 16 = bx - bx % 80 := by omega
  have hnext : (bx - bx % 80 + 80) % 2 ^ 16 = bx - bx % 80 + 80 := by omega
  unfold Print.isLineFeed newLine
  simp only [hline, hnext, less16_iff (show bx - bx % 80 + 80 < 2 ^ 15 by omega)]
  split
  · next hlt => exact ⟨_, rfl, Print.cursor_setCursor t (by omega), h.putOk_setCursor c hlt⟩
  · exact h.rollScreen_spec hv

/-- The cursor after `put_char`, from position `n`. -/
def nextCursor (c : UInt8) (n : Nat) : Nat :=
  if c = 0x0d then newLine n
  else if c = 0x0a then newLine n
  else if c = 0x08 then n - 1
  else if n + 1 < 2000 then n + 1 else newLine (n + 1)

theorem isBackspace_spec {s : Console} (hs : s.cursor < 2000) (hpos : s.cursor ≠ 0) :
    ∃ u, Print.isBackspace s.cursor s = .ok ((), u) ∧ u.cursor = s.cursor - 1 ∧ PutOk 0x08 s u := by
  have hdec : (s.cursor + 2 ^ 16 - 1) % 2 ^ 16 * 2 % 2 ^ 16 = 2 * (s.cursor - 1) := by omega
  have hinc : (2 * (s.cursor - 1) + 1) % 2 ^ 16 = 2 * (s.cursor - 1) + 1 := by omega
  have hshr : (2 * (s.cursor - 1) + 1) / 2 = s.cursor - 1 := by omega
  have hlimit : 2 * (s.cursor - 1) + 1 ≤ videoLimit := by unfold videoLimit; omega
  unfold Print.isBackspace
  simp only [hdec, hinc, hshr]
  rw [bind_of_ok (Print.storeGs_eq 0x20 s (by omega)), bind_of_ok (Print.storeGs_eq 0x07 _ hlimit)]
  have hd := (Print.draws_stored (2 * (s.cursor - 1)) 0x20 s).trans
    (Print.draws_stored (2 * (s.cursor - 1) + 1) 0x07 _) (by omega) (by omega)
  exact ⟨_, rfl, Print.cursor_setCursor _ (by omega),
    (hd.drawn (by omega)).putOk_setCursor 0x08 (by omega)⟩

theorem putOther_spec {s : Console} {c : UInt8} (hs : s.cursor < 2000) (hc : Ordinary c) :
    ∃ u, Print.putOther c s.cursor s = .ok ((), u) ∧
      u.cursor = (if s.cursor + 1 < 2000 then s.cursor + 1 else newLine (s.cursor + 1)) ∧
      PutOk c s u := by
  have hshl : s.cursor * 2 % 2 ^ 16 = 2 * s.cursor := by omega
  have hinc : (2 * s.cursor + 1) % 2 ^ 16 = 2 * s.cursor + 1 := by omega
  have hshr : ((2 * s.cursor + 1) / 2 + 1) % 2 ^ 16 = s.cursor + 1 := by omega
  have hlimit : 2 * s.cursor + 1 ≤ videoLimit := by unfold videoLimit; omega
  unfold Print.putOther
  simp only [hshl, hinc, hshr, less16_iff (show s.cursor + 1 < 2 ^ 15 by omega)]
  rw [bind_of_ok (Print.storeGs_eq c s (by omega)), bind_of_ok (Print.storeGs_eq 0x07 _ hlimit)]
  have hd := ((Print.draws_stored (2 * s.cursor) c s).trans
    (Print.draws_stored (2 * s.cursor + 1) 0x07 _) (by omega) (by omega)).drawn (by omega)
  split
  · next hlt => exact ⟨_, rfl, Print.cursor_setCursor _ (by omega), hd.putOk_setCursor c hlt⟩
  · exact hd.isLineFeed_spec (by rw [shown, if_pos hc]; rfl) (by omega)

/-- `put_char` anywhere on the screen, unless it is to go back from the first position. -/
theorem putChar_spec {s : Console} {c : UInt8} (hs : s.cursor < 2000)
    (hc : c = 0x08 → s.cursor ≠ 0) :
    ∃ t, putChar c s = .ok ((), t) ∧ t.cursor = nextCursor c s.cursor ∧ PutOk c s t := by
  have hrefl : Drawn s s := (Draws.refl 0 0 s).drawn (by omega)
  have hput : putChar c s = (if c = 0x0d then Print.isLineFeed s.cursor
    else if c = 0x0a then Print.isLineFeed s.cursor
    else if c = 0x08 then Print.isBackspace s.cursor
    else Print.putOther c s.cursor) s := rfl
  rw [hput]
  unfold nextCursor
  by_cases hcr : c = 0x0d
  · simp only [if_pos hcr]
    exact hrefl.isLineFeed_spec (by rw [shown, if_neg fun h => h.1 hcr]) (by omega)
  by_cases hlf : c = 0x0a
  · simp only [if_neg hcr, if_pos hlf]
    exact hrefl.isLineFeed_spec (by rw [shown, if_neg fun h => h.2.1 hlf]) (by omega)
  by_cases hbs : c = 0x08
  · subst hbs
    exact isBackspace_spec hs (hc rfl)
  · simp only [if_neg hcr, if_neg hlf, if_neg hbs]
    exact putOther_spec hs ⟨hcr, hlf, hbs⟩

/-- A backspace at the first position is a write at offset `0xfffe`, behind the segment's limit. -/
theorem putChar_backspace_first {s : Console} (hs : s.cursor = 0) :
    putChar 0x08 s = .error .generalProtection := by
  have hread : (Prog.read : Print Console) s = .ok (s, s) := rfl
  have hbx : ((0 + 2 ^ 16 - 1) % 2 ^ 16 * 2 % 2 ^ 16) = 0xfffe := by decide
  unfold putChar
  rw [bind_of_ok hread, if_neg (by decide), if_neg (by decide), if_pos rfl, hs]
  unfold Print.isBackspace
  simp only [hbx]
  rfl

/-! ### Sequences of calls -/

inductive PrintCall where
  | char (c : UInt8)
  | str (bytes : List UInt8)
  | int (num : UInt32)
deriving Repr

def PrintCall.bytes : PrintCall → List UInt8
  | char c => [c]
  | str bytes => bytes
  | int num => putIntChars num

def PrintCall.run : PrintCall → Print Unit
  | char c => putChar c
  | str bytes => putStr bytes
  | int num => putInt num

/-- Every call of `put_char` returns and does what it is to do. -/
def StaysOnScreen : List UInt8 → Console → Prop
  | [], _ => True
  | c :: cs, s => ∃ t, putChar c s = .ok ((), t) ∧ PutOk c s t ∧ StaysOnScreen cs t

/-- None of the bytes `cs`, the first shown at position `n`, is a backspace at position 0. -/
def NoBackspaceFirst : Nat → List UInt8 → Prop
  | _, [] => True
  | n, c :: cs => (c = 0x08 → n ≠ 0) ∧ NoBackspaceFirst (nextCursor c n) cs

theorem staysOnScreen_iff (cs : List UInt8) {s : Console} (hs : s.cursor < 2000) :
    StaysOnScreen cs s ↔ NoBackspaceFirst s.cursor cs := by
  induction cs generalizing s with
  | nil => exact Iff.rfl
  | cons c cs ih =>
    constructor
    · rintro ⟨t, ht, hput, hrest⟩
      have hc : c = 0x08 → s.cursor ≠ 0 := by
        rintro rfl h0
        rw [putChar_backspace_first h0] at ht
        cases ht
      obtain ⟨t', ht', hcur, -⟩ := putChar_spec hs hc
      obtain rfl : t = t' := congrArg Prod.snd (Except.ok.inj (ht.symm.trans ht'))
      refine ⟨hc, ?_⟩
      rw [← hcur]
      exact (ih hput.cursor).mp hrest
    · rintro ⟨hc, hrest⟩
      obtain ⟨t, ht, hcur, hput⟩ := putChar_spec hs hc
      refine ⟨t, ht, hput, (ih hput.cursor).mpr ?_⟩
      rw [hcur]
      exact hrest

instance decidableNoBackspaceFirst : (n : Nat) → (cs : List UInt8) →
    Decidable (NoBackspaceFirst n cs)
  | _, [] => .isTrue trivial
  | n, c :: cs =>
    have := decidableNoBackspaceFirst (nextCursor c n) cs
    inferInstanceAs (Decidable ((c = 0x08 → n ≠ 0) ∧ NoBackspaceFirst (nextCursor c n) cs))

theorem PrintCall.run_eq_putStr (call : PrintCall) (s : Console) :
    call.run s = putStr call.bytes s := by
  cases call with
  | char c =>
    show putChar c s = putChar c s >>= fun p => .ok ((), p.2)
    cases putChar c s <;> rfl
  | str bytes => rfl
  | int num => rfl

theorem StaysOnScreen.putStr_ok {cs : List UInt8} {s : Console} (h : StaysOnScreen cs s)
    (hs : s.cursor < 2000) : ∃ t, putStr cs s = .ok ((), t) ∧ t.cursor < 2000 := by
  induction cs generalizing s with
  | nil => exact ⟨s, rfl, hs⟩
  | cons c cs ih =>
    obtain ⟨t, ht, hput, hrest⟩ := h
    rw [putStr, bind_of_ok ht]
    exact ih hrest hput.cursor

/-- From a cursor on the screen, every call of `put_char` that a sequence of calls makes keeps to
the screen, unless one is to go back from the first position; each call to print then returns with
the cursor on the screen. -/
theorem console_stays_on_screen_iff (calls : List PrintCall) (s : Console) (hs : s.cursor < 2000) :
    (StaysOnScreen (calls.flatMap PrintCall.bytes) s ↔
      NoBackspaceFirst s.cursor (calls.flatMap PrintCall.bytes)) ∧
    ∀ call : PrintCall, NoBackspaceFirst s.cursor call.bytes →
      ∃ t, call.run s = .ok ((), t) ∧ t.cursor < 2000 := by
  refine ⟨staysOnScreen_iff _ hs, fun call hcall => ?_⟩
  rw [call.run_eq_putStr s]
  exact ((staysOnScreen_iff _ hs).mpr hcall).putStr_ok hs

/-- The blank screen with the cursor at the first position. -/
def blankScreen : Console := ⟨0, 0, fun _ => 0, []⟩

theorem console_stays_on_screen_hello :
    StaysOnScreen ([PrintCall.str [0x48, 0x69, 0x0a], .char 0x08,
    .int 0xff].flatMap PrintCall.bytes)
      blankScreen :=
  (console_stays_on_screen_iff _ blankScreen (by decide)).1.mpr (by decide)

theorem console_backspace_first_fails :
    blankScreen.cursor = 0 ∧ putChar 0x08 blankScreen = .error .generalProtection ∧
      ¬ StaysOnScreen ([PrintCall.char 0x08].flatMap PrintCall.bytes) blankScreen := by
  refine ⟨rfl, putChar_backspace_first rfl, fun h => ?_⟩
  obtain ⟨t, ht, -⟩ := h
  rw [putChar_backspace_first rfl] at ht
  cases ht

end OriginOS
