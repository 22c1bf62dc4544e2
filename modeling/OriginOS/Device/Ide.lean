import OriginOS.Kernel.Debug
import OriginOS.Lib.Sectors

/-! `ide_read` and `ide_write` of `device/ide.c`, on a disk that stores what it is sent. -/

namespace OriginOS

open Lib

/-- The bytes of a disk. Sector `lba` is the 512 bytes from `512 * lba` on. -/
abbrev Disk := Nat → UInt8

def maxLba : Nat := 64 * 1024 * 1024 / 512 - 1

/-- The sectors that `read_from_sector` and `write2sector` move, and the drive as well: their
`uint8_t sec_cnt` is 0 for 256. -/
def sectorCount (secCnt : Nat) : Nat := if secCnt % 2 ^ 8 = 0 then 256 else secCnt % 2 ^ 8

def selectSector (lba : Nat) : Except Panic Unit :=
  assert (lba ≤ maxLba) ⟨"./device/ide.c", 83, "select_sector", "lba <= max_lba"⟩

/-- The loop of `ide_read`, with `n` passes to go. -/
def ideReadLoop (disk : Disk) (lba secCnt : Nat) : Nat → Nat → (Nat → UInt8) →
    Except Panic (Nat → UInt8)
  | 0, _, buf => pure buf
  | n + 1, secsDone, buf =>
    if secsDone < secCnt then do
      let secsOp := if secsDone + 256 ≤ secCnt then 256 else secCnt - secsDone
      selectSector (lba + secsDone)
      let part := readSectors disk (fun k => buf (512 * secsDone + k)) (lba + secsDone)
        (sectorCount secsOp)
      ideReadLoop disk lba secCnt n (secsDone + secsOp) fun a =>
        if a < 512 * secsDone then buf a else part (a - 512 * secsDone)
    else pure buf

def ideRead (disk : Disk) (lba : Nat) (buf : Nat → UInt8) (secCnt : Nat) :
    Except Panic (Nat → UInt8) := do
  assert (lba ≤ maxLba) ⟨"./device/ide.c", 136, "ide_read", "lba <= max_lba"⟩
  assert (secCnt > 0) ⟨"./device/ide.c", 136, "ide_read", "sec_cnt > 0"⟩
  ideReadLoop disk lba secCnt ((secCnt + 255) / 256) 0 buf

/-- The loop of `ide_write`, with `n` passes to go. -/
def ideWriteLoop (lba secCnt : Nat) (buf : Nat → UInt8) : Nat → Nat → Disk → Except Panic Disk
  | 0, _, disk => pure disk
  | n + 1, secsDone, disk =>
    if secsDone < secCnt then do
      let secsOp := if secsDone + 256 ≤ secCnt then 256 else secCnt - secsDone
      selectSector (lba + secsDone)
      ideWriteLoop lba secCnt buf n (secsDone + secsOp)
        (writeSectors disk (fun k => buf (512 * secsDone + k)) (lba + secsDone)
          (sectorCount secsOp))
    else pure disk

def ideWrite (disk : Disk) (lba : Nat) (buf : Nat → UInt8) (secCnt : Nat) : Except Panic Disk := do
  assert (lba ≤ maxLba) ⟨"./device/ide.c", 171, "ide_write", "lba <= max_lba"⟩
  assert (secCnt > 0) ⟨"./device/ide.c", 171, "ide_write", "sec_cnt > 0"⟩
  ideWriteLoop lba secCnt buf ((secCnt + 255) / 256) 0 disk

/-- The driver moves the sectors: it tests the first sector of every pass. -/
def Transferable (lba secCnt : Nat) : Prop :=
  0 < secCnt ∧ lba + 256 * ((secCnt - 1) / 256) ≤ maxLba

instance (lba secCnt : Nat) : Decidable (Transferable lba secCnt) :=
  inferInstanceAs (Decidable (_ ∧ _))

theorem Transferable.one {lba : Nat} (h : lba ≤ maxLba) : Transferable lba 1 := ⟨by omega, by omega⟩

section Loops

variable {disk disk' : Disk} {buf buf' : Nat → UInt8} {lba secCnt secsDone n : Nat}

theorem sectorCount_eq {secsOp : Nat} (hpos : 0 < secsOp) (hle : secsOp ≤ 256) :
    sectorCount secsOp = secsOp := by
  unfold sectorCount
  split <;> omega

theorem selectSector_eq_ok {u : Unit} : selectSector lba = .ok u ↔ lba ≤ maxLba := by
  rw [selectSector, assert_eq_ok, decide_eq_true_eq]

theorem ideWriteLoop_eq_ok (hn : secCnt - secsDone ≤ 256 * n) (hle : secsDone ≤ secCnt) :
    ideWriteLoop lba secCnt buf n secsDone disk = .ok disk' ↔
      (secsDone < secCnt → lba + secsDone + 256 * ((secCnt - secsDone - 1) / 256) ≤ maxLba) ∧
      disk' = writeSectors disk (fun k => buf (512 * secsDone + k)) (lba + secsDone)
        (secCnt - secsDone) := by
  induction n generalizing secsDone disk with
  | zero =>
    obtain rfl : secsDone = secCnt := by omega
    rw [Nat.sub_self, writeSectors_zero]
    simp [ideWriteLoop, pure, Except.pure, eq_comm]
  | succ n ih =>
    rw [ideWriteLoop]
    by_cases hlt : secsDone < secCnt
    · rw [if_pos hlt, bind_eq_ok]
      generalize hop : (if secsDone + 256 ≤ secCnt then 256 else secCnt - secsDone) = secsOp
      have hbounds : 0 < secsOp ∧ secsOp ≤ 256 ∧ secsDone + secsOp ≤ secCnt ∧
          (secsDone + secsOp < secCnt → secsOp = 256) ∧ secCnt - (secsDone + secsOp) ≤ 256 * n := by
        split at hop <;> omega
      obtain ⟨hpos, hle', hsum, hfull, hrest⟩ := hbounds
      simp only [selectSector_eq_ok]
      rw [sectorCount_eq hpos hle']
      have hadd := @writeSectors_add disk (fun k => buf (512 * secsDone + k))
        (lba + secsDone) secsOp
        (secCnt - (secsDone + secsOp))
      rw [show secsOp + (secCnt - (secsDone + secsOp)) = secCnt - secsDone by omega] at hadd
      rw [← hadd]
      constructor
      · rintro ⟨-, hsel, hloop⟩
        obtain ⟨hbound, rfl⟩ := (ih hrest hsum).mp hloop
        constructor
        · intro _
          by_cases hmore : secsDone + secsOp < secCnt
          · have := hbound hmore
            have := hfull hmore
            omega
          · omega
        · simp only [Nat.mul_add, Nat.add_assoc]
      · rintro ⟨hbound, rfl⟩
        refine ⟨(), by have := hbound hlt; omega, (ih hrest hsum).mpr ⟨fun hmore => ?_, ?_⟩⟩
        · have := hbound hlt
          have := hfull hmore
          omega
        · simp only [Nat.mul_add, Nat.add_assoc]
    · obtain rfl : secsDone = secCnt := by omega
      rw [if_neg hlt, Nat.sub_self, writeSectors_zero]
      simp [pure, Except.pure, eq_comm]

theorem ideWrite_eq_ok : ideWrite disk lba buf secCnt = .ok disk' ↔
    Transferable lba secCnt ∧ disk' = writeSectors disk buf lba secCnt := by
  have hloop := @ideWriteLoop_eq_ok disk disk' buf lba secCnt 0 ((secCnt + 255) / 256) (by omega)
    (Nat.zero_le _)
  simp only [Nat.mul_zero, Nat.zero_add, Nat.add_zero, Nat.sub_zero] at hloop
  simp only [ideWrite, bind_eq_ok, assert_eq_ok, decide_eq_true_eq, hloop, Transferable]
  constructor
  · rintro ⟨-, hlba, -, hpos, hbound, hdisk⟩
    exact ⟨⟨hpos, hbound hpos⟩, hdisk⟩
  · rintro ⟨⟨hpos, hbound⟩, hdisk⟩
    exact ⟨(), by omega, (), hpos, fun _ => hbound, hdisk⟩

/-- The buffer with `cnt` sectors at byte `512 * done`. -/
def readAt (disk : Disk) (buf : Nat → UInt8) (lba done cnt : Nat) : Nat → UInt8 := fun a =>
  if a < 512 * done then buf a
  else readSectors disk (fun k => buf (512 * done + k)) lba cnt (a - 512 * done)

theorem readAt_zero (done : Nat) : readAt disk buf lba done 0 = buf := by
  funext a
  unfold readAt
  split
  · rfl
  · rw [readSectors_zero]
    congr 1
    omega

theorem readAt_add (done m k : Nat) :
    readAt disk (readAt disk buf lba done m) (lba + m) (done + m) k =
      readAt disk buf lba done (m + k) := by
  funext a
  simp only [readAt, readSectors]
  by_cases hdone : a < 512 * done
  · rw [if_pos (by omega), if_pos hdone, if_pos hdone]
  · simp only [if_neg hdone]
    by_cases hm : a < 512 * (done + m)
    · rw [if_pos hm, if_pos (by omega), if_pos (by omega)]
    · rw [if_neg hm]
      by_cases hk : a < 512 * (done + m + k)
      · rw [if_pos (by omega), if_pos (by omega)]
        congr 1
        omega
      · rw [if_neg (by omega), show 512 * (done + m) + (a - 512 * (done + m)) = a by omega,
          if_neg hdone, if_neg (by omega), if_neg (by omega)]

theorem ideReadLoop_eq_ok (hn : secCnt - secsDone ≤ 256 * n) (hle : secsDone ≤ secCnt) :
    ideReadLoop disk lba secCnt n secsDone buf = .ok buf' ↔
      (secsDone < secCnt → lba + secsDone + 256 * ((secCnt - secsDone - 1) / 256) ≤ maxLba) ∧
      buf' = readAt disk buf (lba + secsDone) secsDone (secCnt - secsDone) := by
  induction n generalizing secsDone buf with
  | zero =>
    obtain rfl : secsDone = secCnt := by omega
    rw [Nat.sub_self, readAt_zero]
    simp [ideReadLoop, pure, Except.pure, eq_comm]
  | succ n ih =>
    rw [ideReadLoop]
    by_cases hlt : secsDone < secCnt
    · rw [if_pos hlt, bind_eq_ok]
      generalize hop : (if secsDone + 256 ≤ secCnt then 256 else secCnt - secsDone) = secsOp
      have hbounds : 0 < secsOp ∧ secsOp ≤ 256 ∧ secsDone + secsOp ≤ secCnt ∧
          (secsDone + secsOp < secCnt → secsOp = 256) ∧ secCnt - (secsDone + secsOp) ≤ 256 * n := by
        split at hop <;> omega
      obtain ⟨hpos, hle', hsum, hfull, hrest⟩ := hbounds
      simp only [selectSector_eq_ok]
      rw [sectorCount_eq hpos hle']
      have hadd := @readAt_add disk buf (lba + secsDone) secsDone secsOp
        (secCnt - (secsDone + secsOp))
      rw [show secsOp + (secCnt - (secsDone + secsOp)) = secCnt - secsDone by omega,
        Nat.add_assoc lba] at hadd
      rw [← hadd]
      change (∃ _, lba + secsDone ≤ maxLba ∧ ideReadLoop disk lba secCnt n (secsDone + secsOp)
        (readAt disk buf (lba + secsDone) secsDone secsOp) = .ok buf') ↔ _
      rw [ih hrest hsum]
      constructor
      · rintro ⟨-, hsel, hbound, rfl⟩
        refine ⟨fun _ => ?_, rfl⟩
        by_cases hmore : secsDone + secsOp < secCnt
        · have := hbound hmore
          have := hfull hmore
          omega
        · omega
      · rintro ⟨hbound, rfl⟩
        have := hbound hlt
        refine ⟨(), by omega, fun hmore => ?_, rfl⟩
        have := hfull hmore
        omega
    · obtain rfl : secsDone = secCnt := by omega
      rw [if_neg hlt, Nat.sub_self, readAt_zero]
      simp [pure, Except.pure, eq_comm]

theorem ideRead_eq_ok : ideRead disk lba buf secCnt = .ok buf' ↔
    Transferable lba secCnt ∧ buf' = readSectors disk buf lba secCnt := by
  have hloop := @ideReadLoop_eq_ok disk buf buf' lba secCnt 0 ((secCnt + 255) / 256) (by omega)
    (Nat.zero_le _)
  have hat : readAt disk buf (lba + 0) 0 (secCnt - 0) = readSectors disk buf lba secCnt := by
    funext a
    simp [readAt]
  rw [hat] at hloop
  simp only [Nat.add_zero, Nat.sub_zero] at hloop
  simp only [ideRead, bind_eq_ok, assert_eq_ok, decide_eq_true_eq, hloop, Transferable]
  constructor
  · rintro ⟨-, hlba, -, hpos, hbound, hbuf⟩
    exact ⟨⟨hpos, hbound hpos⟩, hbuf⟩
  · rintro ⟨⟨hpos, hbound⟩, hbuf⟩
    exact ⟨(), by omega, (), hpos, fun _ => hbound, hbuf⟩

theorem ideRead_ok (h : Transferable lba secCnt) (disk : Disk) (buf : Nat → UInt8) :
    ideRead disk lba buf secCnt = .ok (readSectors disk buf lba secCnt) :=
  ideRead_eq_ok.mpr ⟨h, rfl⟩

end Loops

end OriginOS
