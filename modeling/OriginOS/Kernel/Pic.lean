import OriginOS.Lib.Pic8259
import OriginOS.Lib.System

/-! The interrupt controllers as `pic_init` of `kernel/interrupt.c` sets them up, the commands that
the stubs of `kernel/kernel.S` give them, and the table of handlers.

The devices raise and lower their lines at any time. The processor takes an interrupt at any time
between two stubs, also when the request that was there has just gone away. A stub ends the
interrupt at the slave and then at the master, with interrupts off, before it calls the handler. -/

namespace OriginOS.Interrupt

open Lib

def picMCrtl : Nat := 0x20

def picMData : Nat := 0x21

def picSCrtl : Nat := 0xa0

def picSData : Nat := 0xa1

def outb (port : Nat) (data : UInt8) (p : PicPair) : PicPair :=
  if port = picMCrtl then { p with master := p.master.command data }
  else if port = picMData then { p with master := p.master.data data }
  else if port = picSCrtl then { p with slave := p.slave.command data }
  else if port = picSData then { p with slave := p.slave.data data }
  else p

def picInitOuts : List (Nat × UInt8) :=
  [(picMCrtl, 0x11), (picMData, 0x20), (picMData, 0x04), (picMData, 0x01),
    (picSCrtl, 0x11), (picSData, 0x28), (picSData, 0x02), (picSData, 0x01),
    (picMData, 0xf8), (picSData, 0xbf)]

def picInit (p : PicPair) : PicPair := picInitOuts.foldl (fun p o => outb o.1 o.2 p) p

/-! ### Handlers -/

inductive IntrHandler where
  | generalIntrHandler | intrTimerHandler | intrKeyboardHandler | intrHdHandler
deriving DecidableEq, Repr

abbrev IdtTable := UInt8 → IntrHandler

def exceptionInit : IdtTable := fun _ => .generalIntrHandler

def registerHandler (vectorNo : UInt8) (function : IntrHandler) (t : IdtTable) : IdtTable :=
  Function.update t vectorNo function

def channelIrqNo (channelNo : Nat) : UInt8 := if channelNo = 0 then 0x20 + 14 else 0x20 + 15

/-- The registrations of `init_all`, with `channelCnt` channels: those of `timer_init`,
`keyboard_init` and `ide_init`. -/
def initHandlers (channelCnt : Nat) : IdtTable :=
  let t := registerHandler 0x20 .intrTimerHandler exceptionInit
  let t := registerHandler 0x21 .intrKeyboardHandler t
  (List.range channelCnt).foldl (fun t c => registerHandler (channelIrqNo c) .intrHdHandler t) t

/-- The handler comes back. `general_intr_handler` does for two vectors only. -/
def Returns (handler : IntrHandler) (vecNr : UInt8) : Prop :=
  handler = .generalIntrHandler → vecNr = 0x27 ∨ vecNr = 0x2f

/-! ### The protocol -/

/-- Where the processor is: outside the stubs, or in the stub of a vector, before the command to the
slave or before the one to the master. -/
inductive StubPc where
  | outside
  | slaveEoi (vector : UInt8)
  | masterEoi (vector : UInt8)
deriving DecidableEq, Repr

structure PicState where
  pic : PicPair
  pc : StubPc

inductive PicAct where
  | raiseMaster (i : Fin 8)
  | lowerMaster (i : Fin 8)
  | raiseSlave (i : Fin 8)
  | lowerSlave (i : Fin 8)
  | interrupt
  | exception (vector : UInt8)
  | eoi
deriving DecidableEq, Repr

def PicAct.Enabled (s : PicState) : PicAct → Prop
  | .interrupt | .exception _ => s.pc = .outside
  | .eoi => s.pc ≠ .outside
  | _ => True

/-- The effect of an action. The input 2 of the master is the output of the slave; it may change at
any time here, as the other inputs. -/
def PicAct.exec (s : PicState) : PicAct → PicState
  | .raiseMaster i => { s with pic.master.irr := Function.update s.pic.master.irr i true }
  | .lowerMaster i => { s with pic.master.irr := Function.update s.pic.master.irr i false }
  | .raiseSlave i => { s with pic.slave.irr := Function.update s.pic.slave.irr i true }
  | .lowerSlave i => { s with pic.slave.irr := Function.update s.pic.slave.irr i false }
  | .interrupt => ⟨s.pic.acknowledge.2, .slaveEoi s.pic.acknowledge.1⟩
  | .exception v => { s with pc := .slaveEoi v }
  | .eoi =>
    match s.pc with
    | .outside => s
    | .slaveEoi v => ⟨outb picSCrtl 0x20 s.pic, .masterEoi v⟩
    | .masterEoi _ => ⟨outb picMCrtl 0x20 s.pic, .outside⟩

/-- The runs after `pic_init`, from controllers in any state with nothing in service. -/
def picSystem : System PicState PicAct Empty where
  init s := ∃ p : PicPair, p.master.isr = .empty ∧ p.slave.isr = .empty ∧
    s = ⟨picInit p, .outside⟩
  guard s a := a.Enabled s
  exec a s := .ok (a.exec s)

/-! ### The controllers after `pic_init` -/

/-- The controllers are set up as `pic_init` means them: vectors from `0x20` and `0x28` on, the
slave at input 2, and open the inputs 0, 1 and 2 of the master and 6 of the slave. -/
structure SetUp (p : PicPair) : Prop where
  next : p.master.next = .mask ∧ p.slave.next = .mask
  base : p.master.base = 0x20 ∧ p.slave.base = 0x28
  icw3 : p.master.icw3 = 0x04 ∧ p.slave.icw3 = 0x02
  icw4 : p.master.icw4 = 0x01 ∧ p.slave.icw4 = 0x01
  imr : p.master.imr = .ofByte 0xf8 ∧ p.slave.imr = .ofByte 0xbf

theorem picInit_setUp (p : PicPair) : SetUp (picInit p) :=
  ⟨⟨rfl, rfl⟩, ⟨rfl, rfl⟩, ⟨rfl, rfl⟩, ⟨rfl, rfl⟩, ⟨rfl, rfl⟩⟩

theorem first_master (l : Lines) : Lines.first (fun i => l i && !Lines.ofByte 0xf8 i) =
    if l 0 then some 0 else if l 1 then some 1 else if l 2 then some 2 else none := by
  have hmask : ∀ i : Fin 8, Lines.ofByte 0xf8 i = decide (3 ≤ i.val) := by decide
  have hrange : List.finRange 8 = [0, 1, 2, 3, 4, 5, 6, 7] := by decide
  rw [Lines.first, hrange]
  simp only [hmask]
  cases h0 : l 0 <;> cases h1 : l 1 <;> cases h2 : l 2 <;> simp [h0, h1, h2]

theorem first_slave (l : Lines) : Lines.first (fun i => l i && !Lines.ofByte 0xbf i) =
    if l 6 then some 6 else none := by
  have hmask : ∀ i : Fin 8, Lines.ofByte 0xbf i = decide (i ≠ 6) := by decide
  have hrange : List.finRange 8 = [0, 1, 2, 3, 4, 5, 6, 7] := by decide
  rw [Lines.first, hrange]
  simp only [hmask]
  cases h6 : l 6 <;> simp [h6]

section Acknowledge

variable {p : Pic}

/-- A request that is acknowledged when nothing is in service is the only one in service then. -/
theorem acknowledge_isr (h : p.isr = .empty) : ∃ i, Lines.Only i p.acknowledge.2.isr := by
  unfold Pic.acknowledge
  split
  · exact ⟨0, fun j _ => by rw [h]; rfl⟩
  · next i _ =>
    refine ⟨i, ?_⟩
    simp only [h]
    split
    · exact fun _ _ => rfl
    · exact Lines.only_update i true

theorem acknowledge_same (p : Pic) : p.acknowledge.2.next = p.next ∧
    p.acknowledge.2.base = p.base ∧ p.acknowledge.2.icw3 = p.icw3 ∧
    p.acknowledge.2.icw4 = p.icw4 ∧ p.acknowledge.2.imr = p.imr := by
  unfold Pic.acknowledge
  split <;> exact ⟨rfl, rfl, rfl, rfl, rfl⟩

theorem acknowledge_fst (p : Pic) : p.acknowledge.1 = p.request := by
  unfold Pic.acknowledge
  split
  · next h => exact h.symm
  · next i h => exact h.symm

end Acknowledge

/-- The vector that the processor gets: that of the request of the highest priority among those of
the timer, the keyboard and the first disk channel, or the one for a request that has gone away. -/
def vectorFor (p : PicPair) : UInt8 :=
  if p.master.irr 0 then 0x20
  else if p.master.irr 1 then 0x21
  else if p.master.irr 2 then (if p.slave.irr 6 then 0x2e else 0x2f)
  else 0x27

section Pair

variable {p : PicPair}

theorem acknowledge_cases (p : PicPair) :
    p.acknowledge.2 = ⟨p.master.acknowledge.2, p.slave⟩ ∨
      p.acknowledge.2 = ⟨p.master.acknowledge.2, p.slave.acknowledge.2⟩ := by
  simp only [PicPair.acknowledge]
  split
  · exact .inl rfl
  · split
    · split
      · exact .inr rfl
      · exact .inl rfl
    · exact .inl rfl

theorem SetUp.acknowledge (h : SetUp p) : SetUp p.acknowledge.2 := by
  obtain ⟨hn, hb, h3, h4, hi⟩ := acknowledge_same p.master
  obtain ⟨hn', hb', h3', h4', hi'⟩ := acknowledge_same p.slave
  rcases acknowledge_cases p with heq | heq <;> rw [heq]
  · exact ⟨⟨hn.trans h.next.1, h.next.2⟩, ⟨hb.trans h.base.1, h.base.2⟩,
      ⟨h3.trans h.icw3.1, h.icw3.2⟩, ⟨h4.trans h.icw4.1, h.icw4.2⟩,
      ⟨hi.trans h.imr.1, h.imr.2⟩⟩
  · exact ⟨⟨hn.trans h.next.1, hn'.trans h.next.2⟩, ⟨hb.trans h.base.1, hb'.trans h.base.2⟩,
      ⟨h3.trans h.icw3.1, h3'.trans h.icw3.2⟩, ⟨h4.trans h.icw4.1, h4'.trans h.icw4.2⟩,
      ⟨hi.trans h.imr.1, hi'.trans h.imr.2⟩⟩

theorem SetUp.vector (h : SetUp p) (hm : p.master.isr = .empty) (hs : p.slave.isr = .empty) :
    p.acknowledge.1 = vectorFor p := by
  have hmaster : p.master.acknowledge.1 = _ := acknowledge_fst p.master
  have hslave : p.slave.acknowledge.1 = _ := acknowledge_fst p.slave
  rw [Pic.request_of_isr_none hm, h.imr.1, first_master] at hmaster
  rw [Pic.request_of_isr_none hs, h.imr.2, first_slave] at hslave
  simp only [PicPair.acknowledge, hmaster, hslave, h.base.1, h.base.2, h.icw3.1, h.icw3.2,
    vectorFor]
  cases p.master.irr 0 <;> cases p.master.irr 1 <;> cases p.master.irr 2 <;>
    cases p.slave.irr 6 <;> rfl

end Pair

/-! ### Runs -/

/-- What is in service, by the place in the stub. -/
def InService (p : PicPair) : StubPc → Prop
  | .outside => p.master.isr = .empty ∧ p.slave.isr = .empty
  | .slaveEoi _ => (∃ i, Lines.Only i p.master.isr) ∧ ∃ i, Lines.Only i p.slave.isr
  | .masterEoi _ => (∃ i, Lines.Only i p.master.isr) ∧ p.slave.isr = .empty

structure PicInv (s : PicState) : Prop where
  setUp : SetUp s.pic
  inService : InService s.pic s.pc

theorem only_empty : Lines.Only 0 Lines.empty := fun _ _ => rfl

theorem endOfInterrupt_same (p : Pic) : p.endOfInterrupt.next = p.next ∧
    p.endOfInterrupt.base = p.base ∧ p.endOfInterrupt.icw3 = p.icw3 ∧
    p.endOfInterrupt.icw4 = p.icw4 ∧ p.endOfInterrupt.imr = p.imr := by
  unfold Pic.endOfInterrupt
  split <;> exact ⟨rfl, rfl, rfl, rfl, rfl⟩

theorem outb_slave (p : PicPair) :
    outb picSCrtl 0x20 p = { p with slave := p.slave.endOfInterrupt } := rfl

theorem outb_master (p : PicPair) :
    outb picMCrtl 0x20 p = { p with master := p.master.endOfInterrupt } := rfl

namespace PicInv

variable {s : PicState}

theorem interrupt (h : PicInv s) (hpc : s.pc = .outside) :
    PicInv (PicAct.interrupt.exec s) := by
  have hin := h.inService
  rw [hpc] at hin
  refine ⟨h.setUp.acknowledge, ?_⟩
  show InService s.pic.acknowledge.2 (.slaveEoi _)
  rcases acknowledge_cases s.pic with heq | heq <;> rw [heq]
  · exact ⟨acknowledge_isr hin.1, 0, hin.2 ▸ only_empty⟩
  · exact ⟨acknowledge_isr hin.1, acknowledge_isr hin.2⟩

theorem exception (h : PicInv s) (hpc : s.pc = .outside) (v : UInt8) :
    PicInv ((PicAct.exception v).exec s) := by
  have hin := h.inService
  rw [hpc] at hin
  exact ⟨h.setUp, ⟨0, hin.1 ▸ only_empty⟩, 0, hin.2 ▸ only_empty⟩

theorem eoi (h : PicInv s) : PicInv (PicAct.eoi.exec s) := by
  have hin := h.inService
  simp only [PicAct.exec]
  split
  · exact h
  · next v hpc =>
    rw [hpc] at hin
    obtain ⟨hm, i, hs⟩ := hin
    obtain ⟨hn, hb, h3, h4, hi⟩ := endOfInterrupt_same s.pic.slave
    rw [outb_slave]
    exact ⟨⟨⟨h.setUp.next.1, hn.trans h.setUp.next.2⟩, ⟨h.setUp.base.1, hb.trans h.setUp.base.2⟩,
      ⟨h.setUp.icw3.1, h3.trans h.setUp.icw3.2⟩, ⟨h.setUp.icw4.1, h4.trans h.setUp.icw4.2⟩,
      ⟨h.setUp.imr.1, hi.trans h.setUp.imr.2⟩⟩, hm, Pic.isr_endOfInterrupt hs⟩
  · next v hpc =>
    rw [hpc] at hin
    obtain ⟨⟨i, hm⟩, hs⟩ := hin
    obtain ⟨hn, hb, h3, h4, hi⟩ := endOfInterrupt_same s.pic.master
    rw [outb_master]
    exact ⟨⟨⟨hn.trans h.setUp.next.1, h.setUp.next.2⟩, ⟨hb.trans h.setUp.base.1, h.setUp.base.2⟩,
      ⟨h3.trans h.setUp.icw3.1, h.setUp.icw3.2⟩, ⟨h4.trans h.setUp.icw4.1, h.setUp.icw4.2⟩,
      ⟨hi.trans h.setUp.imr.1, h.setUp.imr.2⟩⟩, Pic.isr_endOfInterrupt hm, hs⟩

theorem of_irr (h : PicInv s) (irr irr' : Lines) :
    PicInv { s with pic := ⟨{ s.pic.master with irr := irr }, { s.pic.slave with irr := irr' }⟩ } :=
  ⟨⟨h.setUp.next, h.setUp.base, h.setUp.icw3, h.setUp.icw4, h.setUp.imr⟩, by
    have hin := h.inService
    cases hpc : s.pc <;> rw [hpc] at hin <;> exact hin⟩

theorem step (h : PicInv s) {a : PicAct} (ha : a.Enabled s) : PicInv (a.exec s) := by
  cases a with
  | raiseMaster i => exact h.of_irr _ s.pic.slave.irr
  | lowerMaster i => exact h.of_irr _ s.pic.slave.irr
  | raiseSlave i => exact h.of_irr s.pic.master.irr _
  | lowerSlave i => exact h.of_irr s.pic.master.irr _
  | interrupt => exact h.interrupt ha
  | exception v => exact h.exception ha v
  | eoi => exact h.eoi

end PicInv

theorem picSystem_inv {s : PicState} (h : picSystem.Reachable s) : PicInv s := by
  refine h.invariant (fun s hi => ?_) fun s a t hs hstep => ?_
  · obtain ⟨p, hm, hs, rfl⟩ := hi
    exact ⟨picInit_setUp p, hm, hs⟩
  · cases hstep.2
    exact hs.step hstep.1

theorem initHandlers_returns {channelCnt : Nat} (h : 0 < channelCnt) (h2 : channelCnt ≤ 2)
    {v : UInt8} (hv : v ∈ [0x20, 0x21, 0x2e, 0x2f, 0x27]) :
    Returns (initHandlers channelCnt v) v := by
  have hcases : channelCnt = 1 ∨ channelCnt = 2 := by omega
  simp only [List.mem_cons, List.not_mem_nil, or_false] at hv
  rcases hcases with rfl | rfl <;> rcases hv with rfl | rfl | rfl | rfl | rfl <;>
    first | exact fun _ => .inl rfl | exact fun _ => .inr rfl | exact fun hg => by cases hg

theorem vectorFor_mem (p : PicPair) : vectorFor p ∈ [0x20, 0x21, 0x2e, 0x2f, 0x27] := by
  unfold vectorFor
  cases p.master.irr 0 <;> cases p.master.irr 1 <;> cases p.master.irr 2 <;>
    cases p.slave.irr 6 <;> decide

instance (s : PicState) (a : PicAct) : Decidable (picSystem.guard s a) :=
  match a with
  | .interrupt | .exception _ => inferInstanceAs (Decidable (s.pc = .outside))
  | .eoi => inferInstanceAs (Decidable (s.pc ≠ .outside))
  | .raiseMaster _ | .lowerMaster _ | .raiseSlave _ | .lowerSlave _ => .isTrue trivial

/-- The controllers with everything closed and vectors from 0 on, after `pic_init`. -/
def coldPics : PicState where
  pic := picInit ⟨⟨.empty, .empty, fun _ => true, 0, 0, 0, .mask⟩,
    ⟨.empty, .empty, fun _ => true, 0, 0, 0, .mask⟩⟩
  pc := .outside

/-- The keyboard interrupts; meanwhile the disk and the serial port raise their lines. -/
def keyboardServed : List PicAct :=
  [.raiseMaster 1, .interrupt, .raiseMaster 4, .raiseSlave 6, .raiseMaster 2, .eoi, .eoi]

end OriginOS.Interrupt
