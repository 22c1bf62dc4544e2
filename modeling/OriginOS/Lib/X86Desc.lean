import OriginOS.Lib.Bytes

/-! The descriptor tables of the x86 processor in protected mode, as bytes in memory: what the
processor reads from a segment descriptor or a gate, the gate that an interrupt or exception goes
through, and the check of an access to an I/O port. Of the gates, only 32-bit interrupt gates are
gone through here. -/

namespace OriginOS.Lib.X86

/-- A segment descriptor. `type` has four bits, and `limit` is the last offset. -/
structure SegDesc where
  base : Nat
  limit : Nat
  type : Nat
  system : Bool
  dpl : Nat
  present : Bool
deriving DecidableEq, Repr

def segDesc (mem : Nat → UInt8) (a : Nat) : SegDesc :=
  let lo := load32 mem a
  let hi := load32 mem (a + 4)
  let raw := lo % 2 ^ 16 + 2 ^ 16 * (hi / 2 ^ 16 % 2 ^ 4)
  { base := lo / 2 ^ 16 + 2 ^ 16 * (hi % 2 ^ 8) + 2 ^ 24 * (hi / 2 ^ 24)
    -- the granularity bit
    limit := if hi / 2 ^ 23 % 2 = 1 then 4096 * raw + 4095 else raw
    type := hi / 2 ^ 8 % 2 ^ 4
    system := hi / 2 ^ 12 % 2 = 0
    dpl := hi / 2 ^ 13 % 4
    present := hi / 2 ^ 15 % 2 = 1 }

structure GateDesc where
  offset : Nat
  selector : Nat
  type : Nat
  dpl : Nat
  present : Bool
deriving DecidableEq, Repr

def gateDesc (mem : Nat → UInt8) (a : Nat) : GateDesc :=
  let lo := load32 mem a
  let hi := load32 mem (a + 4)
  { offset := lo % 2 ^ 16 + 2 ^ 16 * (hi / 2 ^ 16)
    selector := lo / 2 ^ 16
    type := hi / 2 ^ 8 % 2 ^ 5
    dpl := hi / 2 ^ 13 % 4
    present := hi / 2 ^ 15 % 2 = 1 }

/-- What makes the processor go through the interrupt descriptor table. -/
inductive Event where
  | exception (vector : Nat)
  | external (vector : Nat)
  | software (vector : Nat)
deriving DecidableEq, Repr

def Event.vector : Event → Nat
  | .exception v | .external v | .software v => v

def interruptGate : Nat := 0xe

section Events

variable (mem : Nat → UInt8) (base limit cpl : Nat)

/-- The gate for an event, or the vector of the fault that the event leads to: general protection,
or segment not present. The privilege level is checked for the instruction `int` only. -/
def gateFor (e : Event) : Except Nat GateDesc :=
  let g := gateDesc mem (base + 8 * e.vector)
  if 8 * e.vector + 7 > limit then .error 13
  else if g.type ≠ interruptGate then .error 13
  else if e = .software e.vector ∧ cpl > g.dpl then .error 13
  else if g.present = false then .error 11
  else .ok g

/-- The vector and the gate that the processor goes through at last: a fault on the way is an event
itself, and a second one is a double fault. Without a gate for that the processor shuts down. -/
def enter (e : Event) : Option (Nat × GateDesc) :=
  match gateFor mem base limit cpl e with
  | .ok g => some (e.vector, g)
  | .error fault =>
    match gateFor mem base limit cpl (.exception fault) with
    | .ok g => some (fault, g)
    | .error _ =>
      match gateFor mem base limit cpl (.exception 8) with
      | .ok g => some (8, g)
      | .error _ => none

end Events

/-- The field `IOPL` of `eflags`: the privilege levels up to it may access every port. -/
def iopl (eflags : UInt32) : Nat := eflags.toNat / 2 ^ 12 % 4

/-- The I/O map base field of the task state segment at `tss`: the word at offset 102. -/
def ioMapBase (mem : Nat → UInt8) (tss : Nat) : Nat :=
  (mem (tss + 102)).toNat + 2 ^ 8 * (mem (tss + 103)).toNat

/-- A program at privilege level `cpl` may access the 8-bit port: its level is within `IOPL`, or the
bit for the port in the I/O map of the task state segment is clear. The processor reads the byte
with the bit and the one behind it, and both must be within the segment. -/
def ioAllowed (mem : Nat → UInt8) (tss : SegDesc) (cpl iopl port : Nat) : Bool :=
  let offset := ioMapBase mem tss.base + port / 8
  cpl ≤ iopl || (offset + 1 ≤ tss.limit && !(mem (tss.base + offset)).toNat.testBit (port % 8))

end OriginOS.Lib.X86
