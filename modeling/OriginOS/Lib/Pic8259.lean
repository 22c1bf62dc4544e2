import Mathlib.Data.Fin.Basic
import Mathlib.Data.List.FinRange
import Mathlib.Logic.Function.Basic

/-! Two 8259A interrupt controllers, the second behind an input of the first: the initialization
command words, the mask, requests in the order of their priority, acknowledging a request, and the
end-of-interrupt command. Rotation, polling and the special mask mode are left out. -/

namespace OriginOS.Lib

/-- One bit for each input of a controller. Input 0 has the highest priority. -/
abbrev Lines := Fin 8 → Bool

namespace Lines

def empty : Lines := fun _ => false

def ofByte (b : UInt8) : Lines := fun i => b.toNat.testBit i

def first (l : Lines) : Option (Fin 8) := (List.finRange 8).find? fun i => l i

end Lines

inductive IcwNext where
  | icw2 (cascade icw4 : Bool)
  | icw3 (icw4 : Bool)
  | icw4
  | mask
deriving DecidableEq, Repr

/-- A controller: requests, requests in service, mask, and the bytes `ICW2` to `ICW4`. -/
structure Pic where
  irr : Lines
  isr : Lines
  imr : Lines
  base : UInt8
  icw3 : UInt8
  icw4 : UInt8
  next : IcwNext

namespace Pic

/-- The non-specific end of interrupt: the request of the highest priority is served. -/
def endOfInterrupt (p : Pic) : Pic :=
  match p.isr.first with
  | none => p
  | some i => { p with isr := Function.update p.isr i false }

/-- A byte at the command port: `ICW1`, or the end of interrupt. Other commands are left out. -/
def command (b : UInt8) (p : Pic) : Pic :=
  if b.toNat.testBit 4 then
    -- the edge detection and the mask are reset; what is in service is not
    { p with
      irr := .empty
      imr := .empty
      icw4 := if b.toNat.testBit 0 then p.icw4 else 0
      next := .icw2 (!b.toNat.testBit 1) (b.toNat.testBit 0) }
  else if b = 0x20 then p.endOfInterrupt
  else p

def data (b : UInt8) (p : Pic) : Pic :=
  match p.next with
  | .icw2 cascade icw4 =>
    { p with
      base := b &&& 0xf8
      next := if cascade then .icw3 icw4 else if icw4 then .icw4 else .mask }
  | .icw3 icw4 => { p with icw3 := b, next := if icw4 then .icw4 else .mask }
  | .icw4 => { p with icw4 := b, next := .mask }
  | .mask => { p with imr := .ofByte b }

/-- The request that is passed on: it is not masked and nothing of its priority or a higher one is
in service. -/
def request (p : Pic) : Option (Fin 8) :=
  match Lines.first fun i => p.irr i && !p.imr i with
  | none => none
  | some i => if ∀ j, j ≤ i → p.isr j = false then some i else none

/-- The request is acknowledged. It goes into service unless `ICW4` asks for automatic ends. -/
def acknowledge (p : Pic) : Option (Fin 8) × Pic :=
  match p.request with
  | none => (none, p)
  | some i => (some i,
    { p with
      irr := Function.update p.irr i false
      isr := if p.icw4.toNat.testBit 1 then p.isr else Function.update p.isr i true })

end Pic

/-- A controller and a second one whose output is an input of the first. -/
structure PicPair where
  master : Pic
  slave : Pic

namespace PicPair

/-- The acknowledge cycle of the processor, and the vector that it gets. Without a request a
controller answers with its input 7. An input that `ICW3` of the master names is answered by the
slave that has its number, or by nobody. -/
def acknowledge (p : PicPair) : UInt8 × PicPair :=
  let master := p.master.acknowledge
  match master.1 with
  | none => (p.master.base + 7, { p with master := master.2 })
  | some i =>
    if p.master.icw3.toNat.testBit i then
      if p.slave.icw3.toNat % 8 = i then
        let slave := p.slave.acknowledge
        (p.slave.base + slave.1.elim 7 fun j => .ofNat j, ⟨master.2, slave.2⟩)
      else (0xff, { p with master := master.2 })
    else (p.master.base + .ofNat i, { p with master := master.2 })

end PicPair

namespace Lines

theorem first_eq_none {l : Lines} : l.first = none ↔ ∀ i, l i = false := by
  rw [first, List.find?_eq_none]
  simp

def Only (i : Fin 8) (l : Lines) : Prop := ∀ j, j ≠ i → l j = false

theorem only_update (i : Fin 8) (b : Bool) : Only i (Function.update empty i b) :=
  fun _ hj => Function.update_of_ne hj _ _

theorem first_of_only {l : Lines} {i : Fin 8} (h : Only i l) (hi : l i = true) :
    l.first = some i := by
  cases hf : l.first with
  | none => exact absurd (first_eq_none.mp hf i) (by rw [hi]; decide)
  | some j =>
    have hj : l j = true := List.find?_some hf
    by_contra hne
    rw [h j fun heq => hne (congrArg some heq)] at hj
    cases hj

end Lines

namespace Pic

variable {p : Pic}

theorem isr_endOfInterrupt {i : Fin 8} (h : Lines.Only i p.isr) :
    p.endOfInterrupt.isr = Lines.empty := by
  unfold endOfInterrupt
  cases hi : p.isr i with
  | true =>
    rw [Lines.first_of_only h hi]
    funext j
    show Function.update p.isr i false j = false
    by_cases hj : j = i
    · rw [hj, Function.update_self]
    · rw [Function.update_of_ne hj, h j hj]
  | false =>
    have hnone : ∀ j, p.isr j = false := fun j => by
      by_cases hj : j = i
      · rw [hj, hi]
      · exact h j hj
    rw [Lines.first_eq_none.mpr hnone]
    exact funext hnone

theorem request_of_isr_none (h : p.isr = Lines.empty) :
    p.request = Lines.first fun i => p.irr i && !p.imr i := by
  unfold request
  split
  · next hf => exact hf.symm
  · next i hf =>
    rw [if_pos fun j _ => by rw [h]; rfl]
    exact hf.symm

end Pic

end OriginOS.Lib
