import OriginOS.Lib.Ring
import OriginOS.Thread.Sync

/-! The byte queue of `device/ioqueue.c`, its callers, and the keyboard interrupt that also fills
it.

A call of `ioq_getchar` or `ioq_putchar` is entered with interrupts off, and `lock_acquire` and
`lock_release` return with the interrupt status that they were called with, so a call is switched
out only inside `lock_acquire` or in the `thread_block` of `ioq_wait`. `IoPc` names these places. -/

namespace OriginOS

open Lib

def buffSize : Int := 64

/-- `struct ioqueue` without its lock: the two waiter slots, where `none` is `NULL`, and the
buffer. -/
structure Ioqueue extends Lib.Ring UInt8 where
  producer : Option Nat
  consumer : Option Nat

/-- `ioqueue_init`, on a buffer that holds anything. -/
def ioqueueInit (q : Ioqueue) : Ioqueue :=
  { q with producer := none, consumer := none, head := 0, tail := 0 }

def nextPos (pos : Int) : Int := (pos + 1).tmod buffSize

def ioqFull (s : Sched) (q : Ioqueue) : Except Panic Bool := do
  assert (s.intrStatus = .off)
    ⟨"./device/ioqueue.c", 21, "ioq_full", "intr_get_status() == INTR_OFF"⟩
  pure (nextPos q.head = q.tail)

def ioqEmpty (s : Sched) (q : Ioqueue) : Except Panic Bool := do
  assert (s.intrStatus = .off)
    ⟨"./device/ioqueue.c", 27, "ioq_empty", "intr_get_status() == INTR_OFF"⟩
  pure (q.tail = q.head)

/-- The two fields that `ioq_wait` and `wakeup` get a pointer to. -/
inductive Side where
  | producer | consumer
deriving DecidableEq, Repr

def Ioqueue.waiter (q : Ioqueue) : Side → Option Nat
  | .producer => q.producer
  | .consumer => q.consumer

def Ioqueue.setWaiter (q : Ioqueue) (side : Side) (t : Option Nat) : Ioqueue :=
  match side with
  | .producer => { q with producer := t }
  | .consumer => { q with consumer := t }

def ioqWait (side : Side) (s : Sched) (q : Ioqueue) : Except Panic (Sched × Ioqueue) := do
  assert (q.waiter side = none)
    ⟨"./device/ioqueue.c", 33, "ioq_wait", "*waiter == NULL && waiter != NULL"⟩
  let q := q.setWaiter side (some s.runningThread)
  let s ← threadBlock .blocked s
  pure (s, q)

/-- `wakeup`, called when the slot is not `NULL`. -/
def wakeup (side : Side) (s : Sched) (q : Ioqueue) : Except Panic (Sched × Ioqueue) :=
  match q.waiter side with
  | none => panicSpin ⟨"./device/ioqueue.c", 40, "wakeup", "*waiter != NULL"⟩
  | some t => do
    let s ← threadUnblock t s
    pure (s, q.setWaiter side none)

/-- The test of the slot and the `wakeup` at the end of `ioq_getchar` and `ioq_putchar`. -/
def wakeupWaiter (side : Side) (s : Sched) (q : Ioqueue) : Except Panic (Sched × Ioqueue) :=
  if q.waiter side ≠ none then wakeup side s q else pure (s, q)

/-- `ioq_getchar` behind its loop: the byte at `tail` is taken and a waiting producer woken. -/
def ioqTake (s : Sched) (q : Ioqueue) : Except Panic (Sched × Ioqueue × UInt8) := do
  let byte := q.buf q.tail
  let q := { q with tail := nextPos q.tail }
  let (s, q) ← wakeupWaiter .producer s q
  pure (s, q, byte)

/-- `ioq_putchar` behind its loop: the byte is stored at `head` and a waiting consumer woken. -/
def ioqStore (byte : UInt8) (s : Sched) (q : Ioqueue) : Except Panic (Sched × Ioqueue) := do
  let q := { q with buf := Function.update q.buf q.head byte, head := nextPos q.head }
  wakeupWaiter .consumer s q

/-- Where a thread is: outside, or in `ioq_getchar` or `ioq_putchar` before the test of the loop,
before `ioq_wait`, or between `ioq_wait` and `lock_release`. -/
inductive IoPc where
  | out
  | getTest | getWait | getRelease
  | putTest (byte : UInt8) | putWait (byte : UInt8) | putRelease (byte : UInt8)
deriving DecidableEq, Repr

/-- The queue, and the bytes that completed calls of `ioq_putchar` have stored and that calls of
`ioq_getchar` have taken, oldest first. -/
structure IoState where
  q : Ioqueue
  put : List UInt8
  got : List UInt8

/-- What a thread does: outside, switch interrupts or call one of the two functions; inside, go on
to the next place. -/
inductive IoAct where
  | intr (status : IntrStatus)
  | ioqGetchar
  | ioqPutchar (byte : UInt8)
  | go
deriving DecidableEq, Repr

/-- The next part of the call that a thread is in, up to the next place. -/
def ioGo (k : IoPc) (s : Sched) (d : IoState) :
    Except Panic (Sched × IoState × IoPc × Option (SyncCall Unit)) := do
  match k with
  | .out => pure (s, d, .out, none)
  | .getTest =>
    if ← ioqEmpty s d.q then
      pure (s, d, .getWait, some (.lockAcquire ()))
    else
      let (s, q, byte) ← ioqTake s d.q
      pure (s, { d with q, got := d.got ++ [byte] }, .out, none)
  | .getWait =>
    let (s, q) ← ioqWait .consumer s d.q
    pure (s, { d with q }, .getRelease, none)
  | .getRelease => pure (s, d, .getTest, some (.lockRelease ()))
  | .putTest byte =>
    if ← ioqFull s d.q then
      pure (s, d, .putWait byte, some (.lockAcquire ()))
    else
      let (s, q) ← ioqStore byte s d.q
      pure (s, { d with q, put := d.put ++ [byte] }, .out, none)
  | .putWait byte =>
    let (s, q) ← ioqWait .producer s d.q
    pure (s, { d with q }, .putRelease byte, none)
  | .putRelease byte => pure (s, d, .putTest byte, some (.lockRelease ()))

/-- The part of `intr_keyboard_handler` behind the key map: a character, 0 for none, goes into the
queue unless it is full. `ioq_putchar` tests again and finds the queue not full. -/
def intrKeyboardHandler (curChar : UInt8) (s : Sched) (d : IoState) :
    Except Panic (Sched × IoState) := do
  if curChar = 0 then pure (s, d)
  else if ← ioqFull s d.q then pure (s, d)
  else
    let (s, q) ← ioqStore curChar s d.q
    pure (s, { d with q, put := d.put ++ [curChar] })

/-- Threads that call `ioq_getchar` and `ioq_putchar` on one queue, and the keyboard. -/
def ioClient : Client Unit IoPc IoState IoAct UInt8 where
  start k := k = .out
  guard _ k s _ a := match a with
    | .intr _ => k = .out
    | .ioqGetchar | .ioqPutchar _ => k = .out ∧ s.intrStatus = .off
    | .go => k ≠ .out
  exec a _ k s d := match a with
    | .intr status => pure (intrSetStatus status s, d, k, none)
    | .ioqGetchar => do
      assert (s.intrStatus = .off)
        ⟨"./device/ioqueue.c", 47, "ioq_getchar", "intr_get_status() == INTR_OFF"⟩
      pure (s, d, .getTest, none)
    | .ioqPutchar byte => do
      assert (s.intrStatus = .off)
        ⟨"./device/ioqueue.c", 70, "ioq_putchar", "intr_get_status() == INTR_OFF"⟩
      pure (s, d, .putTest byte, none)
    | .go => ioGo k s d
  handler := intrKeyboardHandler

end OriginOS
