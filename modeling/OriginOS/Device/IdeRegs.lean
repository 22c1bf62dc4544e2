import OriginOS.Device.Ide
import OriginOS.Lib.Prog

/-! `ide_read` and `ide_write` down to the registers of the channel, with a drive that decodes them
as a 28-bit sector number, takes a count of 0 as 256 and moves the data in order. -/

namespace OriginOS.Regs

open Lib

/-- A command that a drive has been given, and the bytes moved for it so far. -/
structure Command where
  write : Bool
  slave : Bool
  lba : Nat
  count : Nat
  moved : Nat
deriving DecidableEq, Repr

/-- The registers of a channel, its two disks, and the commands, the latest first. The status
register says busy for `delay` reads after a command, of which `busy` are left. -/
structure Channel where
  sectCnt : UInt8
  lbaL : UInt8
  lbaM : UInt8
  lbaH : UInt8
  dev : UInt8
  delay : Nat
  busy : Nat
  disk : Bool → Disk
  cmds : List Command

structure IdeDisk where
  name : String
  devNo : Nat

def IdeDisk.slave (hd : IdeDisk) : Bool := hd.devNo = 1

inductive IdeReg where
  | sectCnt | lbaL | lbaM | lbaH | dev | cmd
deriving DecidableEq, Repr

abbrev Chan (α : Type) := Prog Channel Panic α

namespace Channel

def lba (d : Channel) : Nat :=
  d.lbaL.toNat + 2 ^ 8 * d.lbaM.toNat + 2 ^ 16 * d.lbaH.toNat + 2 ^ 24 * (d.dev.toNat % 2 ^ 4)

def slave (d : Channel) : Bool := d.dev.toNat / 2 ^ 4 % 2 = 1

def count (d : Channel) : Nat := if d.sectCnt = 0 then 256 else d.sectCnt.toNat

def begin (d : Channel) (write : Bool) : Channel :=
  { d with busy := d.delay, cmds := ⟨write, d.slave, d.lba, d.count, 0⟩ :: d.cmds }

def put (d : Channel) (byte : UInt8) : Channel :=
  match d.cmds with
  | c :: cs =>
    if c.write ∧ c.moved < 512 * c.count then
      { d with
        disk := Function.update d.disk c.slave
          (Function.update (d.disk c.slave) (512 * c.lba + c.moved) byte)
        cmds := { c with moved := c.moved + 1 } :: cs }
    else d
  | [] => d

def take (d : Channel) : UInt8 × Channel :=
  match d.cmds with
  | c :: cs =>
    if ¬ c.write ∧ c.moved < 512 * c.count then
      (d.disk c.slave (512 * c.lba + c.moved),
      { d with cmds := { c with moved := c.moved + 1 } :: cs })
    else (0xff, d)
  | [] => (0xff, d)

/-- Some data of the command is still to be moved. -/
def pending (d : Channel) : Bool :=
  match d.cmds with
  | c :: _ => c.moved < 512 * c.count
  | [] => false

end Channel

def outb (reg : IdeReg) (data : UInt8) : Chan Unit := do
  let d ← Prog.read
  match reg with
  | .sectCnt => Prog.write { d with sectCnt := data }
  | .lbaL => Prog.write { d with lbaL := data }
  | .lbaM => Prog.write { d with lbaM := data }
  | .lbaH => Prog.write { d with lbaH := data }
  | .dev => Prog.write { d with dev := data }
  | .cmd =>
    if data = 0x30 then Prog.write (d.begin true)
    else if data = 0x20 then Prog.write (d.begin false)
    else pure ()

/-- `inb` from the status register: `BIT_STAT_BSY`, then `BIT_STAT_DRDY` with `BIT_STAT_DRQ` while
there is data. -/
def inbStatus : Chan UInt8 := do
  let d ← Prog.read
  if d.busy = 0 then
    pure (if d.pending then 0x48 else 0x40)
  else
    Prog.write { d with busy := d.busy - 1 }
    pure 0x80

def outsw : Nat → (Nat → UInt8) → Chan Unit
  | 0, _ => pure ()
  | n + 1, addr => do
    let d ← Prog.read
    Prog.write ((d.put (addr 0)).put (addr 1))
    outsw n fun k => addr (k + 2)

/-- `rep insw` of `n` words to the buffer at `a`: the buffer afterwards. -/
def insw : Nat → Nat → (Nat → UInt8) → Chan (Nat → UInt8)
  | 0, _, buf => pure buf
  | n + 1, a, buf => do
    let d ← Prog.read
    let (low, d) := d.take
    let (high, d) := d.take
    Prog.write d
    insw n (a + 2) (Function.update (Function.update buf a low) (a + 1) high)

def selectDisk (hd : IdeDisk) : Chan Unit :=
  outb .dev (if hd.devNo = 1 then 0xa0 ||| 0x40 ||| 0x10 else 0xa0 ||| 0x40)

def selectSector (hd : IdeDisk) (lba : Nat) (secCnt : UInt8) : Chan Unit := do
  Prog.lift id (assert (lba ≤ maxLba) ⟨"./device/ide.c", 83, "select_sector", "lba <= max_lba"⟩)
  outb .sectCnt secCnt
  outb .lbaL (.ofNat lba)
  outb .lbaM (.ofNat (lba >>> 8))
  outb .lbaH (.ofNat (lba >>> 16))
  outb .dev (.ofNat (0xa0 ||| 0x40 ||| (if hd.devNo = 1 then 0x10 else 0) ||| lba >>> 24))

def cmdOut (cmd : UInt8) : Chan Unit := outb .cmd cmd

/-- `size_in_byte` of `read_from_sector` and `write2sector`. -/
def sizeInByte (secCnt : UInt8) : Nat := if secCnt = 0 then 256 * 512 else secCnt.toNat * 512

def readFromSector (a : Nat) (buf : Nat → UInt8) (secCnt : UInt8) : Chan (Nat → UInt8) :=
  insw (sizeInByte secCnt / 2) a buf

def write2sector (buf : Nat → UInt8) (secCnt : UInt8) : Chan Unit :=
  outsw (sizeInByte secCnt / 2) buf

/-- The loop of `busy_wait`, with `timeLimit` after the next decrement. -/
def busyWaitLoop : Nat → Chan Bool
  | 0 => pure false
  | timeLimit + 1 => do
    let status ← inbStatus
    if status &&& 0x80 = 0 then
      let status ← inbStatus
      pure (status &&& 0x08 ≠ 0)
    else busyWaitLoop timeLimit

/-- `busy_wait`. The loop's `time_limit -=10 >= 0` subtracts the value of `10 >= 0`, which is 1. -/
def busyWait : Chan Bool := busyWaitLoop (30 * 1000 - 1)

/-- `PANIC(error)` after a `busy_wait` that failed. -/
def requireReady (ready : Bool) (hd : IdeDisk) (lba line : Nat) (func : String) : Chan Unit :=
  if ready then pure ()
  else Prog.stop
    ⟨"./device/ide.c", line, func, hd.name ++ " read sector " ++ toString lba ++ " failed !\n"⟩

/-- The part of a pass that `ide_read` and `ide_write` share, up to the data. -/
def command (hd : IdeDisk) (cmd : UInt8) (lba secsDone op line : Nat) (func : String) :
    Chan Unit := do
  selectSector hd (lba + secsDone) (.ofNat op)
  cmdOut cmd
  let ready ← busyWait
  requireReady ready hd lba line func

def secsOp (secCnt secsDone : Nat) : Nat :=
  if secsDone + 256 ≤ secCnt then 256 else secCnt - secsDone

/-- The loop of `ide_read`, with at most `n` passes. -/
def ideReadLoop (hd : IdeDisk) (lba secCnt : Nat) : Nat → Nat → (Nat → UInt8) → Chan (Nat → UInt8)
  | 0, _, buf => pure buf
  | n + 1, secsDone, buf =>
    if secsDone < secCnt then do
      let op := secsOp secCnt secsDone
      command hd 0x20 lba secsDone op 160 "ide_read"
      let buf ← readFromSector (512 * secsDone) buf (.ofNat op)
      ideReadLoop hd lba secCnt n (secsDone + op) buf
    else pure buf

def ideRead (hd : IdeDisk) (lba : Nat) (buf : Nat → UInt8) (secCnt : Nat) : Chan (Nat → UInt8) := do
  Prog.lift id (assert (lba ≤ maxLba) ⟨"./device/ide.c", 136, "ide_read", "lba <= max_lba"⟩)
  Prog.lift id (assert (secCnt > 0) ⟨"./device/ide.c", 136, "ide_read", "sec_cnt > 0"⟩)
  selectDisk hd
  ideReadLoop hd lba secCnt ((secCnt + 255) / 256) 0 buf

/-- The loop of `ide_write`, with at most `n` passes. -/
def ideWriteLoop (hd : IdeDisk) (lba secCnt : Nat) (buf : Nat → UInt8) : Nat → Nat → Chan Unit
  | 0, _ => pure ()
  | n + 1, secsDone =>
    if secsDone < secCnt then do
      let op := secsOp secCnt secsDone
      command hd 0x30 lba secsDone op 188 "ide_write"
      write2sector (fun k => buf (512 * secsDone + k)) (.ofNat op)
      ideWriteLoop hd lba secCnt buf n (secsDone + op)
    else pure ()

def ideWrite (hd : IdeDisk) (lba : Nat) (buf : Nat → UInt8) (secCnt : Nat) : Chan Unit := do
  Prog.lift id (assert (lba ≤ maxLba) ⟨"./device/ide.c", 171, "ide_write", "lba <= max_lba"⟩)
  Prog.lift id (assert (secCnt > 0) ⟨"./device/ide.c", 171, "ide_write", "sec_cnt > 0"⟩)
  selectDisk hd
  ideWriteLoop hd lba secCnt buf ((secCnt + 255) / 256) 0

/-! ### One command -/

/-- The memory with the first `n` bytes of `buf` from `a` on. -/
def writeBytes (disk buf : Nat → UInt8) (a n : Nat) : Nat → UInt8 := fun b =>
  if a ≤ b ∧ b < a + n then buf (b - a) else disk b

theorem writeBytes_two (disk buf : Nat → UInt8) (a n : Nat) :
    writeBytes (Function.update (Function.update disk a (buf 0)) (a + 1) (buf 1))
    (fun k => buf (k + 2))
      (a + 2) n = writeBytes disk buf a (n + 2) := by
  funext b
  simp only [writeBytes, Function.update_apply]
  by_cases h0 : b = a
  · rw [if_neg (by omega), if_neg (by omega), if_pos h0, if_pos (by omega), h0, Nat.sub_self]
  by_cases h1 : b = a + 1
  · rw [if_neg (by omega), if_pos h1, if_pos (by omega), h1, Nat.add_sub_cancel_left]
  by_cases hin : a + 2 ≤ b ∧ b < a + 2 + n
  · rw [if_pos hin, if_pos (by omega)]
    congr 1
    omega
  · rw [if_neg hin, if_neg h1, if_neg h0, if_neg (by omega)]

/-- The memory with the `n` bytes of `disk` from `src` on copied to `buf` from `a` on. -/
def readBytes (disk buf : Nat → UInt8) (src a n : Nat) : Nat → UInt8 :=
  writeBytes buf (fun k => disk (src + k)) a n

section Command

variable {hd : IdeDisk} {lba op n : Nat} {d : Channel} {c : Command} {cs : List Command}

structure Selected (hd : IdeDisk) (lba op : Nat) (d d' : Channel) : Prop where
  lba : d'.lba = lba
  slave : d'.slave = hd.slave
  count : d'.count = op
  disk : d'.disk = d.disk
  cmds : d'.cmds = d.cmds
  delay : d'.delay = d.delay

theorem selectSector_ok (hd : IdeDisk) (hlba : lba ≤ maxLba) (hpos : 0 < op) (hop : op ≤ 256)
    (d : Channel) :
    ∃ d', selectSector hd lba (.ofNat op) d = .ok ((), d') ∧ Selected hd lba op d d' := by
  have hmax : lba < 2 ^ 24 := by
    unfold maxLba at hlba
    omega
  have hassert : (Prog.lift id (assert (lba ≤ maxLba)
      ⟨"./device/ide.c", 83, "select_sector", "lba <= max_lba"⟩) : Chan Unit) d = .ok ((), d) := by
    rw [assert_of (decide_eq_true hlba)]
    rfl
  have hhigh : lba >>> 24 = 0 := by
    rw [Nat.shiftRight_eq_div_pow]
    omega
  have hdev : (UInt8.ofNat (0xa0 ||| 0x40 ||| (if hd.devNo = 1 then 0x10 else 0) ||| lba >>> 24)) =
      if hd.slave then 0xf0 else 0xe0 := by
    rw [hhigh, IdeDisk.slave]
    by_cases hno : hd.devNo = 1
    · simp [hno]
    · simp [hno]
  unfold selectSector
  rw [bind_of_ok hassert, hdev]
  refine ⟨_, rfl, ?_, ?_, ?_, rfl, rfl, rfl⟩
  · show (UInt8.ofNat lba).toNat + 2 ^ 8 * (UInt8.ofNat (lba >>> 8)).toNat +
      2 ^ 16 * (UInt8.ofNat (lba >>> 16)).toNat +
      2 ^ 24 * ((if hd.slave then (0xf0 : UInt8) else 0xe0).toNat % 2 ^ 4) = lba
    have hlow : (if hd.slave then (0xf0 : UInt8) else 0xe0).toNat % 2 ^ 4 = 0 := by
      cases hd.slave <;> rfl
    rw [hlow, Nat.shiftRight_eq_div_pow, Nat.shiftRight_eq_div_pow]
    simp only [UInt8.toNat_ofNat']
    omega
  · show decide ((if hd.slave then (0xf0 : UInt8) else 0xe0).toNat / 2 ^ 4 % 2 = 1) = hd.slave
    cases hd.slave <;> rfl
  · show (if UInt8.ofNat op = 0 then 256 else (UInt8.ofNat op).toNat) = op
    have hzero : UInt8.ofNat op = 0 ↔ op % 256 = 0 := by
      rw [← UInt8.toNat_inj, UInt8.toNat_ofNat']
      rfl
    simp only [hzero, UInt8.toNat_ofNat']
    split <;> omega

theorem sizeInByte_eq (hpos : 0 < op) (hop : op ≤ 256) : sizeInByte (.ofNat op) / 2 = 256 * op := by
  have hzero : UInt8.ofNat op = 0 ↔ op % 256 = 0 := by
    rw [← UInt8.toNat_inj, UInt8.toNat_ofNat']
    rfl
  unfold sizeInByte
  simp only [hzero, UInt8.toNat_ofNat']
  split <;> omega

theorem inbStatus_idle (h : d.busy = 0) :
    inbStatus d = .ok (if d.pending then 0x48 else 0x40, d) := by
  unfold inbStatus
  show (if d.busy = 0 then _ else _ : Chan UInt8) d = _
  rw [if_pos h]
  rfl

theorem inbStatus_busy (h : d.busy ≠ 0) :
    inbStatus d = .ok (0x80, { d with busy := d.busy - 1 }) := by
  unfold inbStatus
  show (if d.busy = 0 then _ else _ : Chan UInt8) d = _
  rw [if_neg h]
  rfl

theorem busyWaitLoop_ok (hbusy : d.busy < n) (hpending : d.pending = true) :
    busyWaitLoop n d = .ok (true, { d with busy := 0 }) := by
  induction n generalizing d with
  | zero => omega
  | succ n ih =>
    by_cases hzero : d.busy = 0
    · have hstatus := inbStatus_idle hzero
      rw [if_pos hpending] at hstatus
      rw [busyWaitLoop, bind_of_ok hstatus, if_pos (by decide), bind_of_ok hstatus]
      rw [← hzero]
      rfl
    · rw [busyWaitLoop, bind_of_ok (inbStatus_busy hzero), if_neg (by decide)]
      exact ih (by show d.busy - 1 < n; omega) hpending

theorem outsw_ok (buf : Nat → UInt8) (hc : d.cmds = c :: cs) (hw : c.write = true)
    (hroom : c.moved + 2 * n ≤ 512 * c.count) :
    outsw n buf d = .ok ((), { d with
      disk := Function.update d.disk c.slave
        (writeBytes (d.disk c.slave) buf (512 * c.lba + c.moved) (2 * n))
      cmds := { c with moved := c.moved + 2 * n } :: cs }) := by
  induction n generalizing buf d c with
  | zero =>
    have hnone : writeBytes (d.disk c.slave) buf (512 * c.lba + c.moved) (2 * 0) =
      d.disk c.slave := by
      funext b
      exact if_neg (by omega)
    rw [hnone, Function.update_eq_self, Nat.mul_zero, Nat.add_zero, ← hc]
    rfl
  | succ n ih =>
    let a := 512 * c.lba + c.moved
    let d₂ : Channel := { d with
      disk := Function.update d.disk c.slave
        (Function.update (Function.update (d.disk c.slave) a (buf 0)) (a + 1) (buf 1))
      cmds := { c with moved := c.moved + 2 } :: cs }
    have hput : (d.put (buf 0)).put (buf 1) = d₂ := by
      unfold Channel.put
      rw [hc]
      dsimp only
      rw [if_pos ⟨hw, by omega⟩]
      dsimp only
      rw [if_pos ⟨hw, by omega⟩, Function.update_self, Function.update_idem]
      rfl
    have hrest := ih (fun k => buf (k + 2)) (d := d₂) (c := { c with moved := c.moved + 2 }) rfl hw
      (by show c.moved + 2 + 2 * n ≤ 512 * c.count; omega)
    have hstep : outsw (n + 1) buf d = outsw n (fun k => buf (k + 2)) d₂ := by
      rw [← hput]
      rfl
    rw [hstep, hrest]
    simp only [d₂, Function.update_self, Function.update_idem]
    have htwo := writeBytes_two (d.disk c.slave) buf a (2 * n)
    rw [show 512 * c.lba + (c.moved + 2) = a + 2 by omega, htwo,
      show c.moved + 2 + 2 * n = c.moved + 2 * (n + 1) by omega]
    rfl

theorem insw_ok (buf : Nat → UInt8) (a : Nat) (hc : d.cmds = c :: cs) (hw : c.write = false)
    (hroom : c.moved + 2 * n ≤ 512 * c.count) :
    insw n a buf d = .ok (readBytes (d.disk c.slave) buf (512 * c.lba + c.moved) a (2 * n),
      { d with cmds := { c with moved := c.moved + 2 * n } :: cs }) := by
  induction n generalizing buf a d c with
  | zero =>
    have hnone : readBytes (d.disk c.slave) buf (512 * c.lba + c.moved) a (2 * 0) = buf := by
      funext b
      exact if_neg (by omega)
    rw [hnone, Nat.mul_zero, Nat.add_zero, ← hc]
    rfl
  | succ n ih =>
    let src := 512 * c.lba + c.moved
    let d₂ : Channel := { d with cmds := { c with moved := c.moved + 2 } :: cs }
    have htake : d.take = (d.disk c.slave src,
      { d with cmds := { c with moved := c.moved + 1 } :: cs }) := by
      unfold Channel.take
      rw [hc]
      dsimp only
      rw [if_pos ⟨by simp [hw], by omega⟩]
    have htake' : Channel.take { d with cmds := { c with moved := c.moved + 1 } :: cs } =
        (d.disk c.slave (src + 1), d₂) := by
      unfold Channel.take
      dsimp only
      rw [if_pos ⟨by simp [hw], by omega⟩]
      rfl
    have hrest := ih (Function.update (Function.update buf a (d.disk c.slave src)) (a + 1)
      (d.disk c.slave (src + 1))) (a + 2) (d := d₂) (c := { c with moved := c.moved + 2 }) rfl hw
      (by show c.moved + 2 + 2 * n ≤ 512 * c.count; omega)
    have hstep : insw (n + 1) a buf d = insw n (a + 2) (Function.update (Function.update buf a
        (d.disk c.slave src)) (a + 1) (d.disk c.slave (src + 1))) d₂ := by
      have hread : (Prog.read : Chan Channel) d = .ok (d, d) := rfl
      rw [insw, bind_of_ok hread]
      simp only [htake, htake']
      rfl
    have htwo := writeBytes_two buf (fun k => d.disk c.slave (src + k)) a (2 * n)
    rw [hstep, hrest]
    simp only [d₂, readBytes]
    rw [show c.moved + 2 + 2 * n = c.moved + 2 * (n + 1) by omega,
      show 2 * (n + 1) = 2 * n + 2 by omega, ← htwo]
    simp only [Nat.add_zero]
    congr 3
    funext k
    congr 1
    omega

structure Begun (write : Bool) (hd : IdeDisk) (lba op : Nat) (d d' : Channel) : Prop where
  cmds : d'.cmds = ⟨write, hd.slave, lba, op, 0⟩ :: d.cmds
  disk : d'.disk = d.disk
  delay : d'.delay = d.delay

theorem command_ok {write : Bool} {secsDone line : Nat} {func : String}
    (hlba : lba + secsDone ≤ maxLba) (hpos : 0 < op) (hop : op ≤ 256) (hdelay : d.delay < 29999) :
    ∃ d', command hd (if write then 0x30 else 0x20) lba secsDone op line func d = .ok ((), d') ∧
      Begun write hd (lba + secsDone) op d d' := by
  obtain ⟨d₁, hselect, hd₁⟩ := selectSector_ok hd hlba hpos hop d
  have hcmd : cmdOut (if write then 0x30 else 0x20) d₁ = .ok ((), d₁.begin write) := by
    cases write <;> rfl
  have hpending : (d₁.begin write).pending = true := by
    show decide (0 < 512 * d₁.count) = true
    rw [hd₁.count]
    exact decide_eq_true (by omega)
  have hwait : busyWait (d₁.begin write) = .ok (true, { d₁.begin write with busy := 0 }) :=
    busyWaitLoop_ok (by show d₁.delay < 29999; rw [hd₁.delay]; exact hdelay) hpending
  refine ⟨{ d₁.begin write with busy := 0 }, ?_, ?_, hd₁.disk, hd₁.delay⟩
  · rw [command, bind_of_ok hselect, bind_of_ok hcmd, bind_of_ok hwait]
    rfl
  · show ⟨write, d₁.slave, d₁.lba, d₁.count, 0⟩ :: d₁.cmds = _
    rw [hd₁.slave, hd₁.lba, hd₁.count, hd₁.cmds]

end Command

/-! ### The loops -/

/-- The commands, the latest first, move the sectors from `lba` up to `e` one chunk after the other,
each of 1 to 256 sectors and with the bytes of as many sectors as the drive was told. -/
def Chunks (write slave : Bool) (lba : Nat) : Nat → List Command → Prop
  | e, [] => e = lba
  | e, c :: cs => c.write = write ∧ c.slave = slave ∧ c.lba + c.count = e ∧
    1 ≤ c.count ∧ c.count ≤ 256 ∧ c.moved = 512 * c.count ∧ Chunks write slave lba c.lba cs

theorem Chunks.append {write slave : Bool} {lba mid e : Nat} {cs cs' : List Command}
    (h : Chunks write slave lba mid cs) (h' : Chunks write slave mid e cs') :
    Chunks write slave lba e (cs' ++ cs) := by
  induction cs' generalizing e with
  | nil => exact (show e = mid from h') ▸ h
  | cons c cs' ih =>
    obtain ⟨hwrite, hslave, hend, hpos, hle, hmoved, hrest⟩ := h'
    exact ⟨hwrite, hslave, hend, hpos, hle, hmoved, ih hrest⟩

/-- What a call has done to the channel: the commands that it has sent, and the disks. -/
structure Transferred (write : Bool) (hd : IdeDisk) (lba e : Nat) (disk : Disk) (d d' : Channel) :
    Prop where
  cmds : ∃ cs, d'.cmds = cs ++ d.cmds ∧ Chunks write hd.slave lba e cs
  disk : d'.disk hd.slave = disk
  other : d'.disk (!hd.slave) = d.disk (!hd.slave)
  delay : d'.delay = d.delay

section Loops

variable {hd : IdeDisk} {lba secCnt secsDone n : Nat} {d d₁ d₂ : Channel} {write : Bool}

theorem Transferred.trans {mid e : Nat} {disk₁ disk₂ : Disk}
    (h : Transferred write hd lba mid disk₁ d d₁)
    (h' : Transferred write hd mid e disk₂ d₁ d₂) : Transferred write hd lba e disk₂ d d₂ := by
  obtain ⟨cs, hcs, hchunks⟩ := h.cmds
  obtain ⟨cs', hcs', hchunks'⟩ := h'.cmds
  refine ⟨⟨cs' ++ cs, ?_, hchunks.append hchunks'⟩, h'.disk, h'.other.trans h.other,
    h'.delay.trans h.delay⟩
  rw [hcs', hcs, List.append_assoc]

theorem transferred_refl (write : Bool) (hd : IdeDisk) (lba : Nat) (d : Channel) :
    Transferred write hd lba lba (d.disk hd.slave) d d :=
  ⟨⟨[], rfl, rfl⟩, rfl, rfl, rfl⟩

theorem writeBytes_eq_writeSectors (disk buf : Nat → UInt8) (lba cnt : Nat) :
    writeBytes disk buf (512 * lba) (512 * cnt) = writeSectors disk buf lba cnt := by
  funext a
  simp only [writeBytes, writeSectors, Nat.mul_add]

theorem readBytes_eq_readAt (disk buf : Nat → UInt8) (lba secsDone cnt : Nat) :
    readBytes disk buf (512 * lba) (512 * secsDone) (512 * cnt) =
    readAt disk buf lba secsDone cnt := by
  funext a
  simp only [readBytes, writeBytes, readAt, readSectors]
  by_cases hlow : a < 512 * secsDone
  · rw [if_neg (by omega), if_pos hlow]
  · rw [if_neg hlow]
    by_cases hin : a - 512 * secsDone < 512 * cnt
    · rw [if_pos (by omega), if_pos hin]
    · rw [if_neg (by omega), if_neg hin, Nat.add_sub_cancel' (by omega)]

theorem chunks_one (write slave : Bool) (lba : Nat) {op : Nat} (hpos : 0 < op) (hop : op ≤ 256) :
    Chunks write slave lba (lba + op) [⟨write, slave, lba, op, 512 * op⟩] :=
  ⟨rfl, rfl, rfl, hpos, hop, rfl, rfl⟩

theorem writePass_ok {op line : Nat} {func : String} (buf : Nat → UInt8)
    (hlba : lba + secsDone ≤ maxLba)
    (hpos : 0 < op) (hop : op ≤ 256) (hdelay : d.delay < 29999) :
    ∃ d₁ d₂, command hd 0x30 lba secsDone op line func d = .ok ((), d₁) ∧
      write2sector buf (.ofNat op) d₁ = .ok ((), d₂) ∧
      Transferred true hd (lba + secsDone) (lba + secsDone + op)
        (writeSectors (d.disk hd.slave) buf (lba + secsDone) op) d d₂ := by
  obtain ⟨d₁, hcommand, hbegun⟩ :=
    @command_ok hd lba op d true secsDone line func hlba hpos hop hdelay
  have hmove := outsw_ok (n := 256 * op) buf hbegun.cmds rfl (by dsimp only; omega)
  dsimp only at hmove
  rw [Nat.add_zero, Nat.zero_add, show 2 * (256 * op) = 512 * op by omega,
    writeBytes_eq_writeSectors,
    hbegun.disk] at hmove
  refine ⟨d₁, _, hcommand, by rw [write2sector, sizeInByte_eq hpos hop]; exact hmove, ?_⟩
  refine ⟨⟨_, rfl, chunks_one true hd.slave (lba + secsDone) hpos hop⟩, ?_, ?_, hbegun.delay⟩
  · exact Function.update_self ..
  · exact Function.update_of_ne (by cases hd.slave <;> decide) ..

theorem readPass_ok {op line : Nat} {func : String} (buf : Nat → UInt8)
    (hlba : lba + secsDone ≤ maxLba)
    (hpos : 0 < op) (hop : op ≤ 256) (hdelay : d.delay < 29999) :
    ∃ d₁ d₂, command hd 0x20 lba secsDone op line func d = .ok ((), d₁) ∧
      readFromSector (512 * secsDone) buf (.ofNat op) d₁ =
        .ok (readAt (d.disk hd.slave) buf (lba + secsDone) secsDone op, d₂) ∧
      Transferred false hd (lba + secsDone) (lba + secsDone + op) (d.disk hd.slave) d d₂ := by
  obtain ⟨d₁, hcommand, hbegun⟩ :=
    @command_ok hd lba op d false secsDone line func hlba hpos hop hdelay
  have hmove := insw_ok (n := 256 * op) buf (512 * secsDone) hbegun.cmds rfl (by dsimp only; omega)
  dsimp only at hmove
  rw [Nat.add_zero, Nat.zero_add, show 2 * (256 * op) = 512 * op by omega, readBytes_eq_readAt,
    hbegun.disk] at hmove
  refine ⟨d₁, _, hcommand, by rw [readFromSector, sizeInByte_eq hpos hop]; exact hmove, ?_⟩
  exact ⟨⟨_, rfl, chunks_one false hd.slave (lba + secsDone) hpos hop⟩, rfl, rfl, hbegun.delay⟩

theorem secsOp_bounds (h : secsDone < secCnt) (hn : secCnt - secsDone ≤ 256 * (n + 1)) :
    0 < secsOp secCnt secsDone ∧ secsOp secCnt secsDone ≤ 256 ∧
      secsDone + secsOp secCnt secsDone ≤ secCnt ∧
      secCnt - (secsDone + secsOp secCnt secsDone) ≤ 256 * n := by
  unfold secsOp
  split <;> omega

theorem ideWriteLoop_ok (buf : Nat → UInt8) (hlba : lba + secCnt ≤ maxLba + 1)
    (hdelay : d.delay < 29999) (hn : secCnt - secsDone ≤ 256 * n) (hle : secsDone ≤ secCnt) :
    ∃ d', ideWriteLoop hd lba secCnt buf n secsDone d = .ok ((), d') ∧
      Transferred true hd (lba + secsDone) (lba + secCnt) (writeSectors (d.disk hd.slave)
        (fun k => buf (512 * secsDone + k)) (lba + secsDone) (secCnt - secsDone)) d d' := by
  induction n generalizing secsDone d with
  | zero =>
    obtain rfl : secsDone = secCnt := by omega
    rw [Nat.sub_self, writeSectors_zero]
    exact ⟨d, rfl, transferred_refl true hd _ d⟩
  | succ n ih =>
    by_cases hlt : secsDone < secCnt
    · obtain ⟨hpos, hop, hsum, hrest⟩ := secsOp_bounds hlt hn
      obtain ⟨d₁, d₂, hcommand, hmove, hpass⟩ := @writePass_ok hd lba secsDone d _ 188 "ide_write"
        (fun k => buf (512 * secsDone + k)) (by omega) hpos hop hdelay
      obtain ⟨d₃, hloop, htail⟩ := ih (d := d₂) (by rw [hpass.delay]; exact hdelay) hrest hsum
      refine ⟨d₃, ?_, ?_⟩
      · rw [ideWriteLoop, if_pos hlt, bind_of_ok hcommand, bind_of_ok hmove, hloop]
      · generalize secsOp secCnt secsDone = op at *
        rw [hpass.disk] at htail
        have hadd := @writeSectors_add (d.disk hd.slave) (fun k => buf (512 * secsDone + k))
          (lba + secsDone)
          op (secCnt - (secsDone + op))
        rw [show op + (secCnt - (secsDone + op)) = secCnt - secsDone by omega] at hadd
        rw [← hadd]
        have htrans := hpass.trans (by rwa [← Nat.add_assoc] at htail)
        simpa only [Nat.mul_add, Nat.add_assoc] using htrans
    · obtain rfl : secsDone = secCnt := by omega
      rw [Nat.sub_self, writeSectors_zero, ideWriteLoop, if_neg hlt]
      exact ⟨d, rfl, transferred_refl true hd _ d⟩

theorem ideReadLoop_ok (buf : Nat → UInt8) (hlba : lba + secCnt ≤ maxLba + 1)
    (hdelay : d.delay < 29999) (hn : secCnt - secsDone ≤ 256 * n) (hle : secsDone ≤ secCnt) :
    ∃ d', ideReadLoop hd lba secCnt n secsDone buf d =
        .ok (readAt (d.disk hd.slave) buf (lba + secsDone) secsDone (secCnt - secsDone), d') ∧
      Transferred false hd (lba + secsDone) (lba + secCnt) (d.disk hd.slave) d d' := by
  induction n generalizing secsDone d buf with
  | zero =>
    obtain rfl : secsDone = secCnt := by omega
    rw [Nat.sub_self, readAt_zero]
    exact ⟨d, rfl, transferred_refl false hd _ d⟩
  | succ n ih =>
    by_cases hlt : secsDone < secCnt
    · obtain ⟨hpos, hop, hsum, hrest⟩ := secsOp_bounds hlt hn
      obtain ⟨d₁, d₂, hcommand, hmove, hpass⟩ := @readPass_ok hd lba secsDone d _ 160 "ide_read"
        buf (by omega) hpos hop hdelay
      obtain ⟨d₃, hloop, htail⟩ := ih (d := d₂)
        (readAt (d.disk hd.slave) buf (lba + secsDone) secsDone (secsOp secCnt secsDone))
        (by rw [hpass.delay]; exact hdelay) hrest hsum
      have hrun : ideReadLoop hd lba secCnt (n + 1) secsDone buf d = ideReadLoop hd lba secCnt n
          (secsDone + secsOp secCnt secsDone)
          (readAt (d.disk hd.slave) buf (lba + secsDone) secsDone
            (secsOp secCnt secsDone)) d₂ := by
        rw [ideReadLoop, if_pos hlt, bind_of_ok hcommand, bind_of_ok hmove]
      rw [hloop] at hrun
      generalize secsOp secCnt secsDone = op at *
      rw [hpass.disk] at htail hrun
      have hadd := @readAt_add (d.disk hd.slave) buf (lba + secsDone) secsDone op
        (secCnt - (secsDone + op))
      rw [show op + (secCnt - (secsDone + op)) = secCnt - secsDone by omega,
        Nat.add_assoc lba] at hadd
      refine ⟨d₃, ?_, ?_⟩
      · rw [hrun, hadd]
      · exact hpass.trans (by rwa [← Nat.add_assoc] at htail)
    · obtain rfl : secsDone = secCnt := by omega
      rw [Nat.sub_self, readAt_zero, ideReadLoop, if_neg hlt]
      exact ⟨d, rfl, transferred_refl false hd _ d⟩

end Loops

/-! ### Write, then read -/

section Calls

variable {hd : IdeDisk} {lba secCnt : Nat} {d : Channel}

theorem lift_assert_ok {cond : Bool} (h : cond = true) (p : Panic) (d : Channel) :
    (Prog.lift id (assert cond p) : Chan Unit) d = .ok ((), d) := by
  rw [assert_of h]
  rfl

theorem ideWrite_ok (buf : Nat → UInt8) (hpos : 0 < secCnt) (hlba : lba + secCnt ≤ maxLba + 1)
    (hdelay : d.delay < 29999) : ∃ d', ideWrite hd lba buf secCnt d = .ok ((), d') ∧
      Transferred true hd lba (lba + secCnt)
      (writeSectors (d.disk hd.slave) buf lba secCnt) d d' := by
  have hselect : ∃ dev, selectDisk hd d = .ok ((), { d with dev := dev }) := ⟨_, rfl⟩
  obtain ⟨dev, hselect⟩ := hselect
  obtain ⟨d', hloop, htrans⟩ := @ideWriteLoop_ok hd lba secCnt 0 ((secCnt + 255) / 256)
    { d with dev := dev } buf hlba hdelay (by omega) (Nat.zero_le _)
  refine ⟨d', ?_, ?_⟩
  · rw [ideWrite, bind_of_ok (lift_assert_ok (decide_eq_true (by omega)) _ d),
      bind_of_ok (lift_assert_ok (decide_eq_true hpos) _ d), bind_of_ok hselect, hloop]
  · simp only [Nat.mul_zero, Nat.zero_add, Nat.add_zero, Nat.sub_zero] at htrans
    exact ⟨htrans.cmds, htrans.disk, htrans.other, htrans.delay⟩

theorem ideRead_ok (buf : Nat → UInt8) (hpos : 0 < secCnt) (hlba : lba + secCnt ≤ maxLba + 1)
    (hdelay : d.delay < 29999) :
    ∃ d', ideRead hd lba buf secCnt d = .ok (readSectors (d.disk hd.slave) buf lba secCnt, d') ∧
      Transferred false hd lba (lba + secCnt) (d.disk hd.slave) d d' := by
  have hselect : ∃ dev, selectDisk hd d = .ok ((), { d with dev := dev }) := ⟨_, rfl⟩
  obtain ⟨dev, hselect⟩ := hselect
  obtain ⟨d', hloop, htrans⟩ := @ideReadLoop_ok hd lba secCnt 0 ((secCnt + 255) / 256)
    { d with dev := dev } buf hlba hdelay (by omega) (Nat.zero_le _)
  have hat : readAt (d.disk hd.slave) buf (lba + 0) 0 (secCnt - 0) =
      readSectors (d.disk hd.slave) buf lba secCnt := by
    funext a
    simp [readAt]
  refine ⟨d', ?_, ?_⟩
  · rw [ideRead, bind_of_ok (lift_assert_ok (decide_eq_true (by omega)) _ d),
      bind_of_ok (lift_assert_ok (decide_eq_true hpos) _ d), bind_of_ok hselect, hloop, hat]
  · exact ⟨htrans.cmds, htrans.disk, htrans.other, htrans.delay⟩

end Calls

/-- `ide_write` and then `ide_read` of the same sectors: the buffer comes back, no other sector and
no sector of the other disk changes, and each call sends its sectors in consecutive chunks. -/
theorem disk_write_then_read (hd : IdeDisk) (lba secCnt : Nat) (buf buf' : Nat → UInt8)
    (d : Channel)
    (hpos : 0 < secCnt) (hlba : lba + secCnt ≤ maxLba + 1) (hdelay : d.delay < 29999) :
    ∃ d₁ d₂ read, ideWrite hd lba buf secCnt d = .ok ((), d₁) ∧
      ideRead hd lba buf' secCnt d₁ = .ok (read, d₂) ∧
      (∀ k, k < 512 * secCnt → read k = buf k) ∧ (∀ k, 512 * secCnt ≤ k → read k = buf' k) ∧
      (∀ x, x < lba ∨ lba + secCnt ≤ x →
        SameSector (d.disk hd.slave) (d₁.disk hd.slave) x ∧
        SameSector (d.disk hd.slave) (d₂.disk hd.slave) x) ∧
      d₁.disk (!hd.slave) = d.disk (!hd.slave) ∧ d₂.disk (!hd.slave) = d.disk (!hd.slave) ∧
      (∃ cs, d₁.cmds = cs ++ d.cmds ∧ Chunks true hd.slave lba (lba + secCnt) cs) ∧
      ∃ cs, d₂.cmds = cs ++ d₁.cmds ∧ Chunks false hd.slave lba (lba + secCnt) cs := by
  obtain ⟨d₁, hwrite, hd₁⟩ := @ideWrite_ok hd lba secCnt d buf hpos hlba hdelay
  obtain ⟨d₂, hread, hd₂⟩ := @ideRead_ok hd lba secCnt d₁ buf' hpos hlba
    (by rw [hd₁.delay]; exact hdelay)
  refine ⟨d₁, d₂, _, hwrite, hread, fun k hk => ?_, fun k hk => readSectors_of_not hk,
    fun x hx => ⟨?_, ?_⟩,
    hd₁.other, hd₂.other.trans hd₁.other, hd₁.cmds, hd₂.cmds⟩
  · rw [readSectors_apply hk, hd₁.disk, writeSectors_apply hk]
  · rw [hd₁.disk]
    exact sameSector_writeSectors hx
  · rw [hd₂.disk, hd₁.disk]
    exact sameSector_writeSectors hx

/-- 257 sectors of the slave disk. -/
theorem disk_write_then_read_257 : ∃ d₁ d₂ read,
    ideWrite ⟨"sdb", 1⟩ 1000 (fun k => UInt8.ofNat k) 257 ⟨0, 0, 0, 0, 0, 5, 0, fun _ _ => 0, []⟩ =
      .ok ((), d₁) ∧
    ideRead ⟨"sdb", 1⟩ 1000 (fun _ => 0) 257 d₁ = .ok (read, d₂) ∧ read 131583 = 255 := by
  obtain ⟨d₁, d₂, read, hwrite, hread, hbuf, -⟩ := disk_write_then_read ⟨"sdb", 1⟩ 1000 257
    (fun k => UInt8.ofNat k) (fun _ => 0)
    ⟨0, 0, 0, 0, 0, 5, 0, fun _ _ => 0, []⟩ (by decide) (by decide)
    (by decide)
  exact ⟨d₁, d₂, read, hwrite, hread, hbuf 131583 (by decide)⟩

end OriginOS.Regs
