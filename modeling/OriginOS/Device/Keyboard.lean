import Mathlib.Algebra.Ring.Parity
import Mathlib.Data.FinEnum
import Mathlib.Data.List.Basic
import OriginOS.Device.Ioqueue
import OriginOS.Lib.Prog

/-! The scan codes of `device/keyboard.c`: the handler takes one byte at a time and keeps in five
flags what the bytes before it have said about the modifier keys. -/

namespace OriginOS

open Lib

def shiftLMake : UInt16 := 0x2a

def shiftRMake : UInt16 := 0x36

def altLMake : UInt16 := 0x38

def altRMake : UInt16 := 0xe038

def ctrlLMake : UInt16 := 0x1d

def ctrlRMake : UInt16 := 0xe01d

def capsLockMake : UInt16 := 0x3a

/-- `keymap`: the ASCII codes of each key without and with shift, 0 for a key without a
character. -/
def keymap : List (UInt8 × UInt8) := [
  (0, 0), (27, 27), -- nothing, esc
  (49, 33), (50, 64), (51, 35), (52, 36), (53, 37), -- 1! 2@ 3# 4$ 5%
  (54, 94), (55, 38), (56, 42), (57, 40), (48, 41), -- 6^ 7& 8* 9( 0)
  (45, 95), (61, 43), (8, 8), (9, 9), -- -_ =+ backspace tab
  (113, 81), (119, 87), (101, 69), (114, 82), (116, 84), -- q w e r t
  (121, 89), (117, 85), (105, 73), (111, 79), (112, 80), -- y u i o p
  (91, 123), (93, 125), (13, 13), (0, 0), -- [ ] enter, left ctrl
  (97, 65), (115, 83), (100, 68), (102, 70), (103, 71), -- a s d f g
  (104, 72), (106, 74), (107, 75), (108, 76), -- h j k l
  (59, 58), (39, 34), (96, 126), (0, 0), (92, 124), -- ;: '" `~ left shift, \|
  (122, 90), (120, 88), (99, 67), (118, 86), (98, 66), (110, 78), (109, 77), -- z x c v b n m
  (44, 60), (46, 62), (47, 63), (0, 0), (42, 42), -- ,< .> /? right shift, *
  (0, 0), (32, 32), (0, 0)] -- left alt, space, caps lock

example : keymap.length = 59 := rfl

structure Keyboard where
  ctrlStatus : Bool
  shiftStatus : Bool
  altStatus : Bool
  capsLockStatus : Bool
  extScancode : Bool
deriving DecidableEq, Repr

/-- What a call of the handler gives out: a character for the queue, the message `unknown key`, or
nothing. -/
inductive KeyOutput where
  | none
  | char (c : UInt8)
  | unknownKey
deriving DecidableEq, Repr

namespace Keyboard

def start : Keyboard := ⟨false, false, false, false, false⟩

def breakKey (makeCode : UInt16) (k : Keyboard) : Keyboard :=
  if makeCode = ctrlLMake ∨ makeCode = ctrlRMake then { k with ctrlStatus := false }
  else if makeCode = shiftLMake ∨ makeCode = shiftRMake then { k with shiftStatus := false }
  else if makeCode = altLMake ∨ makeCode = altRMake then { k with altStatus := false }
  else k

def shift (scancode : UInt16) (k : Keyboard) : Bool :=
  if scancode < 0x0e ∨ scancode = 0x29 ∨ scancode = 0x1a ∨ scancode = 0x1b ∨ scancode = 0x2b ∨
      scancode = 0x27 ∨ scancode = 0x28 ∨ scancode = 0x33 ∨ scancode = 0x34 ∨ scancode = 0x35 then
    k.shiftStatus
  else k.shiftStatus || k.capsLockStatus

/-- The character of a key. With ctrl, `l` and `u` are moved to the control characters. -/
def curChar (scancode : UInt16) (entry : UInt8 × UInt8) (k : Keyboard) : UInt8 :=
  let c := if shift scancode k then entry.2 else entry.1
  if (k.ctrlStatus ∧ c = 108) ∨ (k.ctrlStatus ∧ c = 117) then c - 97 else c

/-- The flags after a key without a character; the high byte of the scan code is gone. -/
def makeKey (scancode : UInt16) (k : Keyboard) : Keyboard :=
  if scancode = ctrlLMake ∨ scancode = ctrlRMake then { k with ctrlStatus := true }
  else if scancode = shiftLMake ∨ scancode = shiftRMake then { k with shiftStatus := true }
  else if scancode = altLMake ∨ scancode = altRMake then { k with altStatus := true }
  else if scancode = capsLockMake then { k with capsLockStatus := !k.capsLockStatus }
  else k

/-- The handler behind the test for a prefix, for a scan code of one or two bytes. The error is an
index that is outside of `keymap`. -/
def key (scancode : UInt16) (k : Keyboard) : Except Nat (Keyboard × KeyOutput) :=
  if scancode &&& 0x0080 ≠ 0 then .ok (breakKey (scancode &&& 0xff7f) k, .none)
  else if (0x00 < scancode ∧ scancode < 0x3b) ∨ scancode = altRMake ∨ scancode = ctrlRMake then
    let index := scancode &&& 0x00ff
    match keymap[index.toNat]? with
    | none => .error index.toNat
    | some entry =>
      let c := curChar scancode entry k
      if c ≠ 0 then .ok (k, .char c) else .ok (makeKey index k, .none)
  else .ok (k, .unknownKey)

def decode (byte : UInt8) (k : Keyboard) : Except Nat (Keyboard × KeyOutput) :=
  let scancode := byte.toUInt16
  if scancode = 0xe0 then .ok ({ k with extScancode := true }, .none)
  else if k.extScancode then key (0xe000 ||| scancode) { k with extScancode := false }
  else key scancode k

def decodeAll : List UInt8 → Keyboard → Except Nat Keyboard
  | [], k => .ok k
  | byte :: bytes, k => do
    let (k, _) ← decode byte k
    decodeAll bytes k

inductive Stop where
  | keymap (index : Nat)
  | panic (p : Panic)

/-- `intr_keyboard_handler`, with the thread and the queue that it finds. -/
def intrKeyboardHandler (byte : UInt8) (k : Keyboard) (s : Sched) (d : IoState) :
    Except Stop (Keyboard × Sched × IoState) := do
  let (k, out) ← (decode byte k).mapError .keymap
  let c := match out with
    | .char c => c
    | _ => 0
  let (s, d) ← (OriginOS.intrKeyboardHandler c s d).mapError .panic
  pure (k, s, d)

/-- The flags after the handler do not depend on what it finds in the queue. -/
theorem intrKeyboardHandler_flags {byte : UInt8} {k k' : Keyboard} {s s' : Sched} {d d' : IoState}
    (h : intrKeyboardHandler byte k s d = .ok (k', s', d')) :
    ∃ out, decode byte k = .ok (k', out) := by
  rw [intrKeyboardHandler] at h
  obtain ⟨⟨k₁, out⟩, hdecode, h⟩ := exists_of_bind_eq_ok h
  obtain ⟨⟨s₁, d₁⟩, -, h⟩ := exists_of_bind_eq_ok h
  obtain ⟨rfl, -⟩ := Prod.mk.inj (Except.ok.inj h)
  refine ⟨out, ?_⟩
  cases hres : decode byte k with
  | error index =>
    rw [hres] at hdecode
    cases hdecode
  | ok r =>
    rw [hres] at hdecode
    exact congrArg Except.ok (Except.ok.inj hdecode)

end Keyboard

/-! ### Keys and what happens to them -/

/-- A key, with the byte that stands for it and whether `0xe0` comes before it. No code is one whose
break code would be the prefix. -/
structure Key where
  ext : Bool
  code : UInt8
  make : code < 0x80
  noPrefix : code ≠ 0x60
deriving DecidableEq, Repr

instance Key.decidableForall (p : Key → Prop) [DecidablePred p] : Decidable (∀ key, p key) :=
  decidable_of_iff (∀ (ext : Bool) (code : UInt8) (make : code < 0x80) (no : code ≠ 0x60),
      p ⟨ext, code, make, no⟩)
    ⟨fun h key => h key.ext key.code key.make key.noPrefix, fun h _ _ _ _ => h _⟩

/-- A key is pressed, or its code is repeated while it is down; it is released; or the key Pause is
pressed, which has a make code of six bytes and no break code. -/
inductive KeyEvent where
  | make (key : Key)
  | brk (key : Key)
  | pause
deriving DecidableEq, Repr

inductive Modifier where
  | ctrl | shift | alt
deriving DecidableEq, Repr

def Modifier.left : Modifier → Key
  | ctrl => ⟨false, 0x1d, by decide, by decide⟩
  | shift => ⟨false, 0x2a, by decide, by decide⟩
  | alt => ⟨false, 0x38, by decide, by decide⟩

def Modifier.right : Modifier → Key
  | ctrl => ⟨true, 0x1d, by decide, by decide⟩
  | shift => ⟨false, 0x36, by decide, by decide⟩
  | alt => ⟨true, 0x38, by decide, by decide⟩

def Key.capsLock : Key := ⟨false, 0x3a, by decide, by decide⟩

/-- The modifier that a key is one of the two keys of. -/
def Key.modifier (key : Key) : Option Modifier :=
  [Modifier.ctrl, .shift, .alt].find? fun m => key = m.left ∨ key = m.right

theorem Key.modifier_iff {key : Key} {m : Modifier} :
    key.modifier = some m ↔ key = m.left ∨ key = m.right := by
  constructor
  · intro h
    have hhas := List.find?_some h
    exact of_decide_eq_true hhas
  · rintro (rfl | rfl)
    · cases m <;> decide
    · cases m <;> decide

namespace Keyboard

def status : Modifier → Keyboard → Bool
  | .ctrl => ctrlStatus
  | .shift => shiftStatus
  | .alt => altStatus

def setStatus (b : Bool) (k : Keyboard) : Modifier → Keyboard
  | .ctrl => { k with ctrlStatus := b }
  | .shift => { k with shiftStatus := b }
  | .alt => { k with altStatus := b }

theorem status_setStatus (b : Bool) (k : Keyboard) (m m' : Modifier) :
    (k.setStatus b m).status m' = if m = m' then b else k.status m' := by
  cases m <;> cases m' <;> rfl

def press (key : Key) (k : Keyboard) : Keyboard :=
  match key.modifier with
  | some m => k.setStatus true m
  | none => if key = .capsLock then { k with capsLockStatus := !k.capsLockStatus } else k

def release (key : Key) (k : Keyboard) : Keyboard :=
  match key.modifier with
  | some m => k.setStatus false m
  | none => k

end Keyboard

namespace KeyEvent

def bytes : KeyEvent → List UInt8
  | make key => (if key.ext then [0xe0] else []) ++ [key.code]
  | brk key => (if key.ext then [0xe0] else []) ++ [key.code ||| 0x80]
  | pause => [0xe1, 0x1d, 0x45, 0xe1, 0x9d, 0xc5]

/-- The flags after the bytes of an event. The bytes of Pause contain those of ctrl. -/
def apply (k : Keyboard) : KeyEvent → Keyboard
  | make key => k.press key
  | brk key => k.release key
  | pause => { k with ctrlStatus := false }

end KeyEvent

/-! ### One event -/

/-- The scan code that the handler puts together. -/
def Key.scancode (key : Key) : UInt16 :=
  if key.ext then 0xe000 ||| key.code.toUInt16 else key.code.toUInt16

namespace Keyboard

variable {k : Keyboard}

theorem decodeAll_lead {byte : UInt8} (hbyte : byte ≠ 0xe0) (ext : Bool)
    (hk : k.extScancode = false) :
    decodeAll ((if ext then [0xe0] else []) ++ [byte]) k =
      (key (if ext then 0xe000 ||| byte.toUInt16 else byte.toUInt16) k).map (·.1) := by
  have hne : byte.toUInt16 ≠ 0xe0 := fun h => hbyte (UInt8.toUInt16_inj.mp h)
  have hback : { k with extScancode := false } = k := by
    rw [← hk]
  have hlast : ∀ r : Except Nat (Keyboard × KeyOutput),
      (do let (k, _) ← r; decodeAll [] k) = r.map (·.1) := by
    intro r
    cases r <;> rfl
  cases ext with
  | false =>
    simp only [Bool.false_eq_true, if_false, List.nil_append, decodeAll, decode, if_neg hne, hk]
    exact hlast _
  | true =>
    simp only [if_true, List.cons_append, List.nil_append, decodeAll, decode, if_neg hne]
    rw [if_pos (by decide), except_ok_bind]
    dsimp only
    rw [if_pos rfl, hback]
    exact hlast _

theorem curChar_none (scancode : UInt16) : curChar scancode (0, 0) k = 0 := by
  simp [curChar]

theorem curChar_ne {entry : UInt8 × UInt8} (hfst : entry.1 ≠ 0) (hsnd : entry.2 ≠ 0)
    (scancode : UInt16) : curChar scancode entry k ≠ 0 := by
  have hne : (if shift scancode k then entry.2 else entry.1) ≠ 0 := by
    split
    · exact hsnd
    · exact hfst
  unfold curChar
  dsimp only
  generalize (if shift scancode k then entry.2 else entry.1) = c at hne ⊢
  split
  · rename_i h
    rcases h with ⟨-, h⟩ | ⟨-, h⟩
    · rw [h]; decide
    · rw [h]; decide
  · exact hne

/-- A scan code for which there is a line in the map. -/
abbrev InMap (scancode : UInt16) : Prop :=
  (0x00 < scancode ∧ scancode < 0x3b) ∨ scancode = altRMake ∨ scancode = ctrlRMake

theorem key_flags {scancode : UInt16} (hbit : scancode &&& 0x0080 = 0)
    (hmap : InMap scancode)
    (hentry : keymap[(scancode &&& 0x00ff).toNat]? = some (0, 0)) :
    key scancode k = .ok (makeKey (scancode &&& 0x00ff) k, .none) := by
  rw [key, if_neg (not_not_intro hbit), if_pos hmap]
  dsimp only
  rw [hentry]
  dsimp only
  rw [curChar_none, if_neg (not_not_intro rfl)]

def flagKeys : List Key := [.capsLock, Modifier.ctrl.left, Modifier.ctrl.right,
  Modifier.shift.left, Modifier.shift.right, Modifier.alt.left, Modifier.alt.right]

theorem entry_other : ∀ key : Key, key ∉ flagKeys → InMap key.scancode →
    (keymap[(key.scancode &&& 0x00ff).toNat]?).any fun entry => entry.1 ≠ 0 ∧ entry.2 ≠ 0 := by
  decide +kernel

def breakScancode (key : Key) : UInt16 :=
  if key.ext then 0xe000 ||| (key.code ||| 0x80).toUInt16 else (key.code ||| 0x80).toUInt16

/-- A break code is the make code with one bit more, and is not the byte before the extended
codes. -/
theorem scancode_bit : ∀ key : Key, key.scancode &&& 0x0080 = 0 ∧
    breakScancode key &&& 0x0080 ≠ 0 ∧ breakScancode key &&& 0xff7f = key.scancode ∧
    key.code ||| 0x80 ≠ 0xe0 := by
  decide +kernel

theorem press_other {key : Key} (h : key ∉ flagKeys) : k.press key = k := by
  have hnone : key.modifier = none := by
    cases hm : key.modifier with
    | none => rfl
    | some m =>
      refine absurd ?_ h
      rcases Key.modifier_iff.mp hm with rfl | rfl
      · cases m <;> decide
      · cases m <;> decide
  have hcaps : key ≠ .capsLock := by
    rintro rfl
    exact h (by decide)
  rw [press, hnone]
  exact if_neg hcaps

theorem key_press (key : Key) : ∃ out, Keyboard.key key.scancode k = .ok (k.press key, out) := by
  by_cases h : key ∈ flagKeys
  · refine ⟨.none, ?_⟩
    simp only [flagKeys, List.mem_cons, List.not_mem_nil, or_false] at h
    rcases h with rfl | rfl | rfl | rfl | rfl | rfl | rfl
    all_goals exact key_flags (by decide) (by decide) (by decide)
  · rw [press_other h]
    by_cases hmap : InMap key.scancode
    · have hany := entry_other key h hmap
      rw [Keyboard.key, if_neg (not_not_intro (scancode_bit key).1), if_pos hmap]
      dsimp only
      cases hentry : keymap[(key.scancode &&& 0x00ff).toNat]? with
      | none =>
        rw [hentry] at hany
        cases hany
      | some entry =>
        rw [hentry] at hany
        obtain ⟨hfst, hsnd⟩ := of_decide_eq_true hany
        exact ⟨_, if_pos (curChar_ne hfst hsnd key.scancode)⟩
    · refine ⟨.unknownKey, ?_⟩
      rw [Keyboard.key, if_neg (not_not_intro (scancode_bit key).1), if_neg hmap]

theorem scancode_modifier : ∀ key : Key,
    (key.scancode = ctrlLMake ∨ key.scancode = ctrlRMake ↔ key.modifier = some .ctrl) ∧
    (key.scancode = shiftLMake ∨ key.scancode = shiftRMake ↔ key.modifier = some .shift) ∧
    (key.scancode = altLMake ∨ key.scancode = altRMake ↔ key.modifier = some .alt) := by
  decide +kernel

theorem key_release (key : Key) :
    Keyboard.key (breakScancode key) k = .ok (k.release key, .none) := by
  obtain ⟨-, hbit, hcode, -⟩ := scancode_bit key
  obtain ⟨hctrl, hshift, halt⟩ := scancode_modifier key
  rw [Keyboard.key, if_pos hbit, hcode, breakKey, release]
  simp only [hctrl, hshift, halt]
  cases key.modifier with
  | none => rfl
  | some m => cases m <;> rfl

theorem decodeAll_append (bytes bytes' : List UInt8) :
    decodeAll (bytes ++ bytes') k = decodeAll bytes k >>= decodeAll bytes' := by
  induction bytes generalizing k with
  | nil => rfl
  | cons byte bytes ih =>
    rw [List.cons_append, decodeAll, decodeAll]
    cases decode byte k with
    | error index => rfl
    | ok r => exact ih

theorem decodeAll_make (key : Key) (hk : k.extScancode = false) :
    decodeAll (KeyEvent.make key).bytes k = .ok (k.press key) := by
  have hne : key.code ≠ 0xe0 := fun h => absurd (h ▸ key.make) (by decide)
  obtain ⟨out, hkey⟩ := @key_press k key
  rw [KeyEvent.bytes, decodeAll_lead hne key.ext hk, ← Key.scancode, hkey]
  rfl

theorem decodeAll_brk (key : Key) (hk : k.extScancode = false) :
    decodeAll (KeyEvent.brk key).bytes k = .ok (k.release key) := by
  obtain ⟨-, -, -, hlead⟩ := scancode_bit key
  rw [KeyEvent.bytes, decodeAll_lead hlead key.ext hk, ← breakScancode, key_release]
  rfl

theorem extScancode_setStatus (b : Bool) (m : Modifier) :
    (k.setStatus b m).extScancode = k.extScancode := by
  cases m <;> rfl

theorem extScancode_apply (e : KeyEvent) : (e.apply k).extScancode = k.extScancode := by
  cases e with
  | make key =>
    rw [KeyEvent.apply, press]
    split
    · exact extScancode_setStatus ..
    · split <;> rfl
  | brk key =>
    rw [KeyEvent.apply, release]
    split
    · exact extScancode_setStatus ..
    · rfl
  | pause => rfl

/-- The bytes of Pause are those of other events. -/
def pauseEvents : List KeyEvent :=
  let numLock : Key := ⟨false, 0x45, by decide, by decide⟩
  let e1 : Key := ⟨false, 0x61, by decide, by decide⟩
  [.brk e1, .make Modifier.ctrl.left, .make numLock, .brk e1, .brk Modifier.ctrl.left, .brk numLock]

theorem decodeAll_flatMap {events : List KeyEvent}
    (hstep : ∀ e ∈ events, ∀ k, k.extScancode = false → decodeAll e.bytes k = .ok (e.apply k))
    (hk : k.extScancode = false) :
    decodeAll (events.flatMap KeyEvent.bytes) k = .ok (events.foldl KeyEvent.apply k) := by
  induction events generalizing k with
  | nil => rfl
  | cons e events ih =>
    obtain ⟨he, hrest⟩ := List.forall_mem_cons.mp hstep
    rw [List.flatMap_cons, decodeAll_append, he k hk, except_ok_bind, List.foldl_cons]
    exact ih hrest ((extScancode_apply e).trans hk)

theorem decodeAll_event (e : KeyEvent) (hk : k.extScancode = false) :
    decodeAll e.bytes k = .ok (e.apply k) := by
  cases e with
  | make key => exact decodeAll_make key hk
  | brk key => exact decodeAll_brk key hk
  | pause =>
    have hbytes : KeyEvent.pause.bytes = pauseEvents.flatMap KeyEvent.bytes := by decide
    rw [hbytes, decodeAll_flatMap (fun e he k hk => ?_) hk]
    · rfl
    · simp only [pauseEvents, List.mem_cons, List.not_mem_nil, or_false] at he
      rcases he with rfl | rfl | rfl | rfl | rfl | rfl
      all_goals first | exact decodeAll_make _ hk | exact decodeAll_brk _ hk

end Keyboard

/-! ### Sequences of events -/

/-- The key has been pressed and not released since. -/
def isDown (key : Key) (events : List KeyEvent) : Bool :=
  events.foldl (fun down e => if e = .make key then true else if e = .brk key then false else down)
    false

namespace KeyEvent

def presses (m : Modifier) : KeyEvent → Bool
  | make key => key.modifier = some m
  | _ => false

/-- A key of the modifier is released, or Pause sends the codes of left ctrl. -/
def releases (m : Modifier) : KeyEvent → Bool
  | make _ => false
  | brk key => key.modifier = some m
  | pause => m = .ctrl

end KeyEvent

/-- The last event that has to do with the modifier. -/
def lastOf (m : Modifier) (events : List KeyEvent) : Option KeyEvent :=
  (events.filter fun e => e.presses m || e.releases m).getLast?

def releasedLast (m : Modifier) (events : List KeyEvent) : Bool :=
  (lastOf m events).any (KeyEvent.releases m)

structure Tracks (events : List KeyEvent) (k : Keyboard) : Prop where
  modifiers : ∀ m, k.status m = true ↔ isDown m.left events = true ∨ isDown m.right events = true
  capsLock : k.capsLockStatus = true ↔ Odd (events.count (.make .capsLock))
  complete : k.extScancode = false

section Sequences

variable {m : Modifier} {events : List KeyEvent} {e : KeyEvent} {key : Key}

theorem isDown_concat : isDown key (events ++ [e]) =
    if e = .make key then true else if e = .brk key then false else isDown key events := by
  rw [isDown, List.foldl_append]
  rfl

theorem lastOf_concat : lastOf m (events ++ [e]) =
    if e.presses m || e.releases m then some e else lastOf m events := by
  rw [lastOf, List.filter_append]
  by_cases h : (e.presses m || e.releases m) = true
  · rw [if_pos h, List.filter_singleton, h]
    exact List.getLast?_concat
  · rw [if_neg h, List.filter_singleton, eq_false_of_ne_true h]
    exact congrArg List.getLast? (List.append_nil _)

theorem status_apply (k : Keyboard) : (e.apply k).status m =
    if e.presses m then true else if e.releases m then false else k.status m := by
  cases e with
  | make key =>
    simp only [KeyEvent.apply, KeyEvent.presses, KeyEvent.releases, Keyboard.press,
      decide_eq_true_eq]
    cases hm : key.modifier with
    | none =>
      have hkept : ∀ b, ({ k with capsLockStatus := b } : Keyboard).status m = k.status m := by
        intro b
        cases m <;> rfl
      by_cases hcaps : key = .capsLock <;> simp [hcaps, hkept]
    | some m' => simp [Keyboard.status_setStatus]
  | brk key =>
    simp only [KeyEvent.apply, KeyEvent.presses, KeyEvent.releases, Keyboard.release,
      decide_eq_true_eq]
    cases hm : key.modifier with
    | none => simp
    | some m' => simp [Keyboard.status_setStatus]
  | pause => cases m <;> rfl

theorem capsLock_apply (k : Keyboard) : (e.apply k).capsLockStatus =
    if e = .make .capsLock then !k.capsLockStatus else k.capsLockStatus := by
  have hset : ∀ b m, (k.setStatus b m).capsLockStatus = k.capsLockStatus := by
    intro b m
    cases m <;> rfl
  cases e with
  | make key =>
    rw [KeyEvent.apply, Keyboard.press]
    cases hm : key.modifier with
    | none => by_cases hcaps : key = .capsLock <;> simp [hcaps]
    | some m' =>
      have hne : key ≠ .capsLock := by
        rintro rfl
        exact absurd hm (by cases m' <;> decide)
      simp [hset, hne]
  | brk key =>
    rw [KeyEvent.apply, Keyboard.release]
    cases key.modifier <;> simp [hset]
  | pause => rfl

theorem extScancode_foldl : (events.foldl KeyEvent.apply .start).extScancode = false := by
  induction events using List.reverseRecOn with
  | nil => rfl
  | append_singleton events e ih =>
    rw [List.foldl_concat, Keyboard.extScancode_apply, ih]

theorem status_foldl : (events.foldl KeyEvent.apply .start).status m =
    (lastOf m events).any (KeyEvent.presses m) := by
  induction events using List.reverseRecOn with
  | nil => cases m <;> rfl
  | append_singleton events e ih =>
    rw [List.foldl_concat, status_apply, ih, lastOf_concat]
    cases hp : e.presses m with
    | true => simp [hp]
    | false =>
      cases hr : e.releases m with
      | true => simp [hp]
      | false => simp

theorem capsLock_foldl : (events.foldl KeyEvent.apply .start).capsLockStatus = true ↔
    Odd (events.count (.make .capsLock)) := by
  induction events using List.reverseRecOn with
  | nil => decide
  | append_singleton events e ih =>
    rw [List.foldl_concat, capsLock_apply, List.count_append]
    by_cases he : e = .make .capsLock
    · rw [if_pos he, he, List.count_singleton_self, Nat.odd_add_one, ← ih]
      simp
    · rw [if_neg he, List.count_singleton, if_neg (by simpa using he), Nat.add_zero, ih]

theorem modifier_left : m.left.modifier = some m := Key.modifier_iff.mpr (.inl rfl)

theorem modifier_right : m.right.modifier = some m := Key.modifier_iff.mpr (.inr rfl)

theorem isDown_other (hkey : key.modifier = some m) (hp : e.presses m = false)
    (hr : e.releases m = false) : isDown key (events ++ [e]) = isDown key events := by
  rw [isDown_concat, if_neg, if_neg]
  · rintro rfl
    simp [KeyEvent.releases, hkey] at hr
  · rintro rfl
    simp [KeyEvent.presses, hkey] at hp

theorem isDown_of_pressed (h : (lastOf m events).any (KeyEvent.presses m) = true) :
    isDown m.left events = true ∨ isDown m.right events = true := by
  induction events using List.reverseRecOn with
  | nil => cases h
  | append_singleton events e ih =>
    rw [lastOf_concat] at h
    cases hp : e.presses m with
    | true =>
      cases e with
      | make key =>
        rcases Key.modifier_iff.mp (of_decide_eq_true hp) with rfl | rfl
        · exact .inl (isDown_concat.trans (if_pos rfl))
        · exact .inr (isDown_concat.trans (if_pos rfl))
      | brk key => cases hp
      | pause => cases hp
    | false =>
      cases hr : e.releases m with
      | true => simp [hp, hr] at h
      | false =>
        rw [isDown_other modifier_left hp hr, isDown_other modifier_right hp hr]
        exact ih (by simpa [hp, hr] using h)

theorem isDown_of_lastOf_none (hkey : key.modifier = some m) (h : lastOf m events = none) :
    isDown key events = false := by
  induction events using List.reverseRecOn with
  | nil => rfl
  | append_singleton events e ih =>
    rw [lastOf_concat] at h
    by_cases hconcerns : (e.presses m || e.releases m) = true
    · rw [if_pos hconcerns] at h
      cases h
    · rw [if_neg hconcerns] at h
      obtain ⟨hp, hr⟩ := Bool.or_eq_false_iff.mp (eq_false_of_ne_true hconcerns)
      rw [isDown_other hkey hp hr]
      exact ih h

theorem releases_of_lastOf (h : lastOf m events = some e) (hp : e.presses m = false) :
    e.releases m = true := by
  have hmem := List.mem_of_getLast? h
  simpa [hp] using (List.mem_filter.mp hmem).2

/-- The flag of a modifier is right unless the last thing that happened to the modifier was a
release while one of its keys is down. -/
theorem status_iff : ((events.foldl KeyEvent.apply .start).status m = true ↔
      isDown m.left events = true ∨ isDown m.right events = true) ↔
    (releasedLast m events = true →
      isDown m.left events = false ∧ isDown m.right events = false) := by
  rw [status_foldl, releasedLast]
  cases hlast : lastOf m events with
  | none =>
    simp [isDown_of_lastOf_none modifier_left hlast, isDown_of_lastOf_none modifier_right hlast]
  | some e =>
    cases hp : e.presses m with
    | true =>
      have hdown := @isDown_of_pressed m events (by simp [hlast, hp])
      have hr : e.releases m = false := by
        cases e with
        | make key => rfl
        | brk key => cases hp
        | pause => cases hp
      simp [hp, hr, hdown]
    | false => simp [hp, releases_of_lastOf hlast hp]

/-- The flags are right after a sequence of complete codes, and the key map is not left, unless a
modifier was last released while its other key, or with Pause the ctrl key, is still down. -/
theorem keyboard_tracks_iff (events : List KeyEvent) :
    (∃ k, Keyboard.decodeAll (events.flatMap KeyEvent.bytes) .start = .ok k ∧ Tracks events k) ↔
      ∀ m, releasedLast m events = true →
        isDown m.left events = false ∧ isDown m.right events = false := by
  have hrun := @Keyboard.decodeAll_flatMap .start events
    (fun e _ k hk => Keyboard.decodeAll_event e hk) rfl
  constructor
  · rintro ⟨k, hk, htracks⟩ m
    obtain rfl := Except.ok.inj (hrun.symm.trans hk)
    exact status_iff.mp (htracks.modifiers m)
  · intro h
    refine ⟨_, hrun, fun m => status_iff.mpr (h m), capsLock_foldl, ?_⟩
    exact extScancode_foldl

/-- Left shift is released while right shift is down. -/
theorem keyboard_shift_lost : ∃ events : List KeyEvent,
    events = [.make Modifier.shift.left, .make Modifier.shift.right, .brk Modifier.shift.left] ∧
    Keyboard.decodeAll (events.flatMap KeyEvent.bytes) .start = .ok .start ∧
    isDown Modifier.shift.right events = true ∧
    ¬ ∃ k, Keyboard.decodeAll (events.flatMap KeyEvent.bytes) .start = .ok k ∧
      Tracks events k := by
  refine ⟨_, rfl, by decide, by decide, ?_⟩
  rintro ⟨k, hk, htracks⟩
  have hstart : Keyboard.start = k := Except.ok.inj ((by decide : _ = _).symm.trans hk)
  obtain rfl := hstart
  exact absurd ((htracks.modifiers .shift).mpr (.inr (by decide))) (by decide)

end Sequences

end OriginOS
