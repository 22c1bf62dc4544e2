import OriginOS.Fs.Mount

/-! The loop of `filesys_init` in `fs/fs.c`, which searches the second device of both channels for
partitions and formats those that have no file system. -/

namespace OriginOS

open Lib

/-- `struct disk`. `parts` is the memory from `prim_parts` on: its partitions 0 to 3 are
`prim_parts`, and `logic_parts` are 4 to 11. Sector numbers are `uint32_t`. -/
structure HardDisk where
  parts : Nat → Partition
  sectors : Nat
  sectors_le : sectors ≤ 2 ^ 32

/-- What `filesys_init` prints about the partition `partIdx` of a channel. -/
inductive ScanEvent where
  | hasFilesystem (channelNo partIdx : Nat)
  | formatting (channelNo partIdx : Nat)
deriving DecidableEq, Repr

/-- The variables of the loops, the contents of the device of each channel, and what was printed. -/
structure Scan where
  partIdx : Nat
  disks : Nat → Disk
  log : List ScanEvent

section Loops

variable (devices : Nat → HardDisk) (pad : Nat → Nat → Nat → UInt8)

/-- The partition at the pointer `part`. `pad` is the padding of the super block, as in
`partition_format`. -/
def scanPart (channelNo part : Nat) (s : Scan) : Except Panic Scan :=
  let p := (devices channelNo).parts part
  if p.secCnt ≠ 0 then do
    let sbBuf ← ideRead (s.disks channelNo) (p.startLba + 1).toNat (fun _ => 0) 1
    if (SuperBlock.ofBytes sbBuf 0).magic = 0x19590318 then
      pure { s with log := s.log ++ [.hasFilesystem channelNo s.partIdx] }
    else do
      let disk ← partitionFormat p (pad channelNo s.partIdx) (s.disks channelNo)
      pure { s with
        disks := Function.update s.disks channelNo disk
        log := s.log ++ [.formatting channelNo s.partIdx] }
  else pure s

/-- The loop over the partitions of a disk, with `n` passes to go. -/
def scanParts (channelNo : Nat) : Nat → Nat → Scan → Except Panic Scan
  | 0, _, s => pure s
  | n + 1, part, s =>
    if s.partIdx < 12 then do
      let part := if s.partIdx = 4 then 4 else part
      let s ← scanPart devices pad channelNo part s
      scanParts channelNo n (part + 1) { s with partIdx := s.partIdx + 1 }
    else pure s

/-- The loop over the channels, with `n` passes to go. Device 0 of a channel is skipped. -/
def scanChannels : Nat → Nat → Scan → Except Panic Scan
  | 0, _, s => pure s
  | n + 1, channelNo, s =>
    if channelNo < 2 then do
      let s ← scanParts devices pad channelNo 12 0 s
      scanChannels n (channelNo + 1) s
    else pure s

def filesysInit (disks : Nat → Disk) : Except Panic Scan :=
  scanChannels devices pad 2 0 ⟨0, disks, []⟩

end Loops

/-! ### What the loop should reach -/

/-- The super block of the partition has the magic number. -/
def HasMagic (disk : Disk) (part : Partition) : Prop :=
  wordAt disk (512 * (part.startLba + 1).toNat) = 0x19590318

instance (disk : Disk) (part : Partition) : Decidable (HasMagic disk part) :=
  inferInstanceAs (Decidable (_ = _))

def Partition.Has (part : Partition) (x : Nat) : Prop :=
  part.startLba.toNat ≤ x ∧ x < part.startLba.toNat + part.secCnt.toNat

/-- Partition `i` of the disk has been recorded. -/
def HardDisk.Recorded (hd : HardDisk) (i : Nat) : Prop := i < 12 ∧ (hd.parts i).secCnt ≠ 0

instance (hd : HardDisk) (i : Nat) : Decidable (hd.Recorded i) :=
  inferInstanceAs (Decidable (_ ∧ _))

structure PartsFit (hd : HardDisk) : Prop where
  inside : ∀ i, hd.Recorded i → (hd.parts i).startLba.toNat + (hd.parts i).secCnt.toNat ≤ hd.sectors
  apart : ∀ i j x, hd.Recorded i → hd.Recorded j → (hd.parts i).Has x → (hd.parts j).Has x → i = j

/-- After the search every recorded partition of a disk has a file system; it has been formatted if
and only if it had none, and otherwise its sectors are as before. -/
structure Reached (hd : HardDisk) (channelNo : Nat) (disk disk' : Disk) (log : List ScanEvent) :
    Prop where
  magic : ∀ i, hd.Recorded i → HasMagic disk' (hd.parts i)
  formats : ∀ i, hd.Recorded i →
    (.formatting channelNo i ∈ log ↔ ¬ HasMagic disk (hd.parts i))
  keeps : ∀ i, hd.Recorded i → HasMagic disk (hd.parts i) → ∀ x, (hd.parts i).Has x →
    SameSector disk disk' x

/-! ### Sectors of a formatted partition -/

/-- The sector of the root directory that `partition_format` would write. -/
def Partition.rootLba (part : Partition) : Nat :=
  (superBlock part.startLba part.secCnt).dataStartLba.toNat

/-- The sectors of the super block, the bitmaps and the inode table. -/
def Partition.Meta (part : Partition) (x : Nat) : Prop :=
  (part.startLba + 1).toNat ≤ x ∧
    x < (part.startLba + 1).toNat + 610 + (blockBitmapSects part.secCnt).toNat

/-- Sector `x` holds an empty root directory. All root directories have the same bytes. -/
def HoldsRoot (disk : Disk) (x : Nat) : Prop := ∀ k, k < 512 → disk (512 * x + k) = rootDirBuf k

theorem holdsRoot_congr {d₁ d₂ : Disk} {x : Nat} (h : SameSector d₁ d₂ x) :
    HoldsRoot d₂ x ↔ HoldsRoot d₁ x :=
  forall₂_congr fun k hk => by rw [h k hk]

theorem HoldsRoot.sameSector {d₁ d₂ : Disk} {x : Nat} (h : HoldsRoot d₁ x) (h' : HoldsRoot d₂ x) :
    SameSector d₁ d₂ x := fun k hk => (h' k hk).trans (h k hk).symm

section Magic

variable {part : Partition} {disk disk' : Disk} {pad : Nat → UInt8}

theorem hasMagic_congr (h : SameSector disk disk' (part.startLba + 1).toNat) :
    HasMagic disk' part ↔ HasMagic disk part := by
  unfold HasMagic
  rw [wordAt_congr_shift fun k hk => h k (by omega)]

theorem HoldsRoot.not_hasMagic (h : HoldsRoot disk (part.startLba + 1).toNat) :
    ¬ HasMagic disk part := by
  have hword : wordAt disk (512 * (part.startLba + 1).toNat) = wordAt rootDirBuf 0 :=
    wordAt_congr_shift fun k hk => by rw [h k (by omega), Nat.zero_add]
  unfold HasMagic
  rw [hword]
  decide

theorem magic_read : (SuperBlock.ofBytes
    (readSectors disk (fun _ => 0) (part.startLba + 1).toNat 1) 0).magic = 0x19590318 ↔
    HasMagic disk part := by
  have hword : wordAt (readSectors disk (fun _ => 0) (part.startLba + 1).toNat 1) 0 =
      wordAt disk (512 * (part.startLba + 1).toNat) :=
    wordAt_congr_shift fun k hk => by rw [Nat.zero_add, readSectors_apply (by omega)]
  unfold HasMagic
  rw [← hword]
  rfl

variable (h : Accepted part.startLba part.secCnt)
include h

theorem Accepted.hasMagic : HasMagic (formatted part.startLba part.secCnt pad disk) part := by
  have hword : wordAt (formatted part.startLba part.secCnt pad disk)
      (512 * (part.startLba + 1).toNat) =
      wordAt (storeWords pad 0 (superBlock part.startLba part.secCnt).words) 0 :=
    wordAt_congr_shift fun k hk => by rw [h.formatted_superBlock (by omega), Nat.zero_add]
  unfold HasMagic
  rw [hword]
  exact wordAt_storeWords (i := 0) rfl

omit h in
theorem holdsRoot_formatted :
    HoldsRoot (formatted part.startLba part.secCnt pad disk) part.rootLba := by
  intro k hk
  rw [Partition.rootLba, superBlock_dataStartLba]
  exact Accepted.formatted_root hk

theorem Accepted.sameSector {x : Nat} (hmeta : ¬ part.Meta x) (hroot : part.rootLba ≠ x) :
    SameSector disk (formatted part.startLba part.secCnt pad disk) x := by
  intro k hk
  rw [Partition.rootLba, superBlock_dataStartLba] at hroot
  unfold Partition.Meta at hmeta
  exact h.formatted_of_not (by omega) (by omega)

end Magic

theorem PartsFit.has_of_meta {hd : HardDisk} (hfit : PartsFit hd) {i x : Nat} (hi : hd.Recorded i)
    (h : Accepted (hd.parts i).startLba (hd.parts i).secCnt) (hx : (hd.parts i).Meta x) :
    (hd.parts i).Has x := by
  obtain ⟨bitmap₀, hsec, hpos, hround, hsects⟩ := blockBitmapSects_pos h.blockBitmapSects_pos
  have hin := hfit.inside i hi
  have hle := hd.sectors_le
  have hstart : ((hd.parts i).startLba + 1).toNat = (hd.parts i).startLba.toNat + 1 := by
    rw [UInt32.toNat_add, UInt32.toNat_one]
    omega
  unfold Partition.Meta at hx
  unfold Partition.Has
  rw [hstart] at hx
  omega

/-- Formatting a partition leaves the super blocks of the others, apart from its root directory. -/
theorem PartsFit.not_meta {hd : HardDisk} (hfit : PartsFit hd) {i j : Nat} (hi : hd.Recorded i)
    (hj : hd.Recorded j) (hne : i ≠ j) (h : Accepted (hd.parts i).startLba (hd.parts i).secCnt) :
    ¬ (hd.parts i).Meta ((hd.parts j).startLba + 1).toNat := by
  intro hx
  have hhas := hfit.has_of_meta hi h hx
  have hinj := hfit.inside j hj
  have hle := hd.sectors_le
  have hpos : 0 < (hd.parts j).secCnt.toNat := by
    have := hj.2
    rw [ne_eq, ← UInt32.toNat_inj, UInt32.toNat_zero] at this
    omega
  -- the first sector of the other partition would lie in this one, too
  refine hne (hfit.apart i j (hd.parts j).startLba.toNat hi hj ?_ ⟨le_refl _, by omega⟩)
  have hini := hfit.inside i hi
  have hlt := (hd.parts j).startLba.toNat_lt
  have hlt' := (hd.parts i).startLba.toNat_lt
  unfold Partition.Meta at hx
  unfold Partition.Has at hhas ⊢
  rw [UInt32.toNat_add, UInt32.toNat_add, UInt32.toNat_one] at hx
  rw [UInt32.toNat_add, UInt32.toNat_one] at hhas
  obtain ⟨bitmap₀, hsec, -⟩ := blockBitmapSects_pos h.blockBitmapSects_pos
  omega

/-! ### A scan of one disk -/

/-- A scan of the partitions from `i` on prints `log` and turns `disk` into `disk'`. -/
inductive Scanned (hd : HardDisk) (pad : Nat → Nat → UInt8) (c : Nat) :
    Nat → Disk → List ScanEvent → Disk → Prop
  | done {disk : Disk} : Scanned hd pad c 12 disk [] disk
  | skip {i : Nat} {disk disk' : Disk} {log : List ScanEvent} (hi : i < 12)
      (hcnt : (hd.parts i).secCnt = 0) (rest : Scanned hd pad c (i + 1) disk log disk') :
      Scanned hd pad c i disk log disk'
  | found {i : Nat} {disk disk' : Disk} {log : List ScanEvent} (hi : hd.Recorded i)
      (hread : ((hd.parts i).startLba + 1).toNat ≤ maxLba) (hmagic : HasMagic disk (hd.parts i))
      (rest : Scanned hd pad c (i + 1) disk log disk') :
      Scanned hd pad c i disk (.hasFilesystem c i :: log) disk'
  | format {i : Nat} {disk disk' : Disk} {log : List ScanEvent} (hi : hd.Recorded i)
      (hread : ((hd.parts i).startLba + 1).toNat ≤ maxLba) (hmagic : ¬ HasMagic disk (hd.parts i))
      (hacc : Accepted (hd.parts i).startLba (hd.parts i).secCnt)
      (rest : Scanned hd pad c (i + 1)
        (formatted (hd.parts i).startLba (hd.parts i).secCnt (pad i) disk) log disk') :
      Scanned hd pad c i disk (.formatting c i :: log) disk'

section Loop

variable {devices : Nat → HardDisk} {pad : Nat → Nat → Nat → UInt8} {c : Nat}

theorem scanPart_eq_ok {i : Nat} {s t : Scan} (hi : (devices c).Recorded i) :
    scanPart devices pad c i s = .ok t ↔ (((devices c).parts i).startLba + 1).toNat ≤ maxLba ∧
      (HasMagic (s.disks c) ((devices c).parts i) ∧
          t = { s with log := s.log ++ [.hasFilesystem c s.partIdx] } ∨
        ¬ HasMagic (s.disks c) ((devices c).parts i) ∧
          Accepted ((devices c).parts i).startLba ((devices c).parts i).secCnt ∧
          t = { s with
            disks := Function.update s.disks c (formatted ((devices c).parts i).startLba
              ((devices c).parts i).secCnt (pad c s.partIdx) (s.disks c))
            log := s.log ++ [.formatting c s.partIdx] }) := by
  simp only [scanPart, if_pos hi.2, bind_eq_ok, ideRead_eq_ok]
  by_cases hmagic : HasMagic (s.disks c) ((devices c).parts i)
  · constructor
    · rintro ⟨-, ⟨htrans, rfl⟩, hrest⟩
      rw [if_pos (magic_read.mpr hmagic)] at hrest
      exact ⟨htrans.2, .inl ⟨hmagic, (Except.ok.inj hrest).symm⟩⟩
    · rintro ⟨hle, ⟨-, rfl⟩ | ⟨hnot, -⟩⟩
      · refine ⟨_, ⟨.one hle, rfl⟩, ?_⟩
        rw [if_pos (magic_read.mpr hmagic)]
        rfl
      · exact absurd hmagic hnot
  · constructor
    · rintro ⟨-, ⟨htrans, rfl⟩, hrest⟩
      rw [if_neg (magic_read.not.mpr hmagic), bind_eq_ok] at hrest
      obtain ⟨disk, hdisk, hrest⟩ := hrest
      obtain ⟨hacc, rfl⟩ := partitionFormat_eq_ok.mp hdisk
      exact ⟨htrans.2, .inr ⟨hmagic, hacc, (Except.ok.inj hrest).symm⟩⟩
    · rintro ⟨hle, ⟨hhas, -⟩ | ⟨-, hacc, rfl⟩⟩
      · exact absurd hhas hmagic
      · refine ⟨_, ⟨.one hle, rfl⟩, ?_⟩
        rw [if_neg (magic_read.not.mpr hmagic), partitionFormat_eq_ok.mpr ⟨hacc, rfl⟩]
        rfl

theorem scanParts_eq_ok {n i : Nat} {disks : Nat → Disk} {log : List ScanEvent} {s : Scan}
    (hn : i + n = 12) :
    scanParts devices pad c n i ⟨i, disks, log⟩ = .ok s ↔ ∃ more disk',
      Scanned (devices c) (pad c) c i (disks c) more disk' ∧
        s = ⟨12, Function.update disks c disk', log ++ more⟩ := by
  induction n generalizing i disks log with
  | zero =>
    obtain rfl : i = 12 := by omega
    constructor
    · intro h
      refine ⟨[], _, .done, ?_⟩
      rw [Function.update_eq_self, List.append_nil]
      exact (Except.ok.inj h).symm
    · rintro ⟨more, disk', hscan, rfl⟩
      cases hscan with
      | done => rw [Function.update_eq_self, List.append_nil]; rfl
      | skip hi => exact absurd hi (by decide)
      | found hi => exact absurd hi.1 (by decide)
      | format hi => exact absurd hi.1 (by decide)
  | succ n ih =>
    have hi : i < 12 := by omega
    have hpart : (if i = 4 then 4 else i) = i := by split <;> omega
    rw [scanParts, if_pos hi]
    simp only [hpart, bind_eq_ok]
    by_cases hcnt : ((devices c).parts i).secCnt = 0
    · have hskip : scanPart devices pad c i ⟨i, disks, log⟩ = .ok ⟨i, disks, log⟩ := by
        rw [scanPart, if_neg (not_not.mpr hcnt)]
        rfl
      simp only [hskip, Except.ok.injEq, exists_eq_left', ih (show i + 1 + n = 12 by omega)]
      constructor
      · rintro ⟨more, disk', hscan, rfl⟩
        exact ⟨more, disk', .skip hi hcnt hscan, rfl⟩
      · rintro ⟨more, disk', hscan, rfl⟩
        cases hscan with
        | done => exact absurd hi (by decide)
        | skip _ _ rest => exact ⟨more, disk', rest, rfl⟩
        | found hrec => exact absurd hcnt hrec.2
        | format hrec => exact absurd hcnt hrec.2
    · have hrec : (devices c).Recorded i := ⟨hi, hcnt⟩
      simp only [scanPart_eq_ok hrec]
      constructor
      · rintro ⟨t, ⟨hread, ⟨hmagic, rfl⟩ | ⟨hmagic, hacc, rfl⟩⟩, hrest⟩
        · obtain ⟨more, disk', hscan, rfl⟩ := (ih (by omega)).mp hrest
          exact ⟨_, disk', .found hrec hread hmagic hscan, by rw [List.append_assoc]; rfl⟩
        · obtain ⟨more, disk', hscan, rfl⟩ := (ih (by omega)).mp hrest
          simp only [Function.update_self] at hscan
          refine ⟨_, disk', .format hrec hread hmagic hacc hscan, ?_⟩
          rw [List.append_assoc, Function.update_idem]
          rfl
      · rintro ⟨more, disk', hscan, rfl⟩
        cases hscan with
        | done => exact absurd hi (by decide)
        | skip _ hzero => exact absurd hzero hcnt
        | @found _ _ _ more _ hread hmagic rest =>
          refine ⟨_, ⟨hread, .inl ⟨hmagic, rfl⟩⟩, (ih (by omega)).mpr ⟨more, disk', rest, ?_⟩⟩
          rw [List.append_assoc]
          rfl
        | @format _ _ _ more _ hread hmagic hacc rest =>
          refine ⟨_, ⟨hread, .inr ⟨hmagic, hacc, rfl⟩⟩, (ih (by omega)).mpr ⟨more, disk', ?_, ?_⟩⟩
          · simp only [Function.update_self]
            exact rest
          · rw [List.append_assoc, Function.update_idem]
            rfl

end Loop

namespace Scanned

variable {hd : HardDisk} {pad : Nat → Nat → UInt8} {c i : Nat} {disk disk' : Disk}
  {log : List ScanEvent}

/-- The partitions that are formatted are recorded ones, from `i` on, that are accepted. -/
theorem formatting (h : Scanned hd pad c i disk log disk') {j : Nat}
    (hj : .formatting c j ∈ log) : i ≤ j ∧ hd.Recorded j ∧
      Accepted (hd.parts j).startLba (hd.parts j).secCnt := by
  induction h with
  | done => exact absurd hj List.not_mem_nil
  | skip hi hcnt rest ih =>
    obtain ⟨hle, hrest⟩ := ih hj
    exact ⟨by omega, hrest⟩
  | found hi hread hmagic rest ih =>
    obtain ⟨hle, hrest⟩ := ih (List.mem_of_ne_of_mem (by simp) hj)
    exact ⟨by omega, hrest⟩
  | format hi hread hmagic hacc rest ih =>
    rcases List.mem_cons.mp hj with heq | hmem
    · obtain ⟨-, rfl⟩ := ScanEvent.formatting.inj heq
      exact ⟨le_refl _, hi, hacc⟩
    · obtain ⟨hle, hrest⟩ := ih hmem
      exact ⟨by omega, hrest⟩

theorem readable (h : Scanned hd pad c i disk log disk') {j : Nat} (hj : hd.Recorded j)
    (hle : i ≤ j) : ((hd.parts j).startLba + 1).toNat ≤ maxLba := by
  induction h with
  | done => exact absurd hj.1 (by omega)
  | skip hi hcnt rest ih =>
    refine ih (Nat.lt_of_le_of_ne hle ?_)
    rintro rfl
    exact hj.2 hcnt
  | @found i _ _ _ hi hread hmagic rest ih =>
    by_cases heq : i = j
    · exact heq ▸ hread
    · exact ih (by omega)
  | @format i _ _ _ hi hread hmagic hacc rest ih =>
    by_cases heq : i = j
    · exact heq ▸ hread
    · exact ih (by omega)

/-- What the scan does to a sector that is in no region of a partition that is formatted, except for
the root directories. -/
theorem sector (h : Scanned hd pad c i disk log disk') {x : Nat}
    (hmeta : ∀ j, .formatting c j ∈ log → ¬ (hd.parts j).Meta x) :
    (∀ j, .formatting c j ∈ log → (hd.parts j).rootLba = x → HoldsRoot disk' x) ∧
    ((∀ j, .formatting c j ∈ log → (hd.parts j).rootLba ≠ x) → SameSector disk disk' x) ∧
    (HoldsRoot disk x → HoldsRoot disk' x) := by
  induction h with
  | done => exact ⟨fun j hj => absurd hj List.not_mem_nil, fun _ k hk => rfl, id⟩
  | skip hi hcnt rest ih => exact ih hmeta
  | found hi hread hmagic rest ih =>
    obtain ⟨hroot, hsame, hkeep⟩ := ih fun j hj => hmeta j (List.mem_cons_of_mem _ hj)
    refine ⟨fun j hj => hroot j (List.mem_of_ne_of_mem (by simp) hj), fun hne => ?_, hkeep⟩
    exact hsame fun j hj => hne j (List.mem_cons_of_mem _ hj)
  | @format i d _ _ hi hread hmagic hacc rest ih =>
    obtain ⟨hroot, hsame, hkeep⟩ := ih fun j hj => hmeta j (List.mem_cons_of_mem _ hj)
    have hown := hmeta i List.mem_cons_self
    refine ⟨fun j hj hx => ?_, fun hne => ?_, fun hold => ?_⟩
    · rcases List.mem_cons.mp hj with heq | hmem
      · obtain ⟨-, rfl⟩ := ScanEvent.formatting.inj heq
        exact hkeep (hx ▸ holdsRoot_formatted)
      · exact hroot j hmem hx
    · exact (hacc.sameSector hown (hne i List.mem_cons_self)).trans
        (hsame fun j hj => hne j (List.mem_cons_of_mem _ hj))
    · by_cases hx : (hd.parts i).rootLba = x
      · exact hkeep (hx ▸ holdsRoot_formatted)
      · exact hkeep ((holdsRoot_congr (hacc.sameSector hown hx)).mpr hold)

theorem after (h : Scanned hd pad c i disk log disk') {j : Nat} (hj : .formatting c j ∈ log) :
    ∃ mid more, Scanned hd pad c (j + 1)
        (formatted (hd.parts j).startLba (hd.parts j).secCnt (pad j) mid) more disk' ∧
      (∀ k, .formatting c k ∈ more → .formatting c k ∈ log) ∧
      ∀ k, j < k → .formatting c k ∈ log → .formatting c k ∈ more := by
  induction h with
  | done => exact absurd hj List.not_mem_nil
  | skip hi hcnt rest ih => exact ih hj
  | found hi hread hmagic rest ih =>
    obtain ⟨mid, more, hscan, hsub, hall⟩ := ih (List.mem_of_ne_of_mem (by simp) hj)
    exact ⟨mid, more, hscan, fun k hk => List.mem_cons_of_mem _ (hsub k hk),
      fun k hlt hk => hall k hlt (List.mem_of_ne_of_mem (by simp) hk)⟩
  | @format i d _ log hi hread hmagic hacc rest ih =>
    rcases List.mem_cons.mp hj with heq | hmem
    · obtain ⟨-, rfl⟩ := ScanEvent.formatting.inj heq
      refine ⟨d, log, rest, fun k hk => List.mem_cons_of_mem _ hk, fun k hlt hk => ?_⟩
      rcases List.mem_cons.mp hk with heq | hmem
      · obtain ⟨-, rfl⟩ := ScanEvent.formatting.inj heq
        omega
      · exact hmem
    · have hle := (rest.formatting hmem).1
      obtain ⟨mid, more, hscan, hsub, hall⟩ := ih hmem
      refine ⟨mid, more, hscan, fun k hk => List.mem_cons_of_mem _ (hsub k hk), fun k hlt hk => ?_⟩
      rcases List.mem_cons.mp hk with heq | hmem
      · obtain ⟨-, rfl⟩ := ScanEvent.formatting.inj heq
        omega
      · exact hall k hlt hmem

end Scanned

/-! ### When the search reaches every partition -/

/-- The partitions of a disk can be searched: their super blocks can be read, those without a file
system are accepted, and their root directories, which lie behind them, hit no super block and
change no partition that has a file system. -/
structure ScanSafe (hd : HardDisk) (disk : Disk) : Prop where
  readable : ∀ i, hd.Recorded i → ((hd.parts i).startLba + 1).toNat ≤ maxLba
  accepted : ∀ i, hd.Recorded i → ¬ HasMagic disk (hd.parts i) →
    Accepted (hd.parts i).startLba (hd.parts i).secCnt
  supers : ∀ i j, hd.Recorded i → hd.Recorded j → ¬ HasMagic disk (hd.parts i) →
    HasMagic disk (hd.parts j) ∨ j < i →
    (hd.parts i).rootLba ≠ ((hd.parts j).startLba + 1).toNat
  keeps : ∀ i j, hd.Recorded i → hd.Recorded j → ¬ HasMagic disk (hd.parts i) →
    HasMagic disk (hd.parts j) → (hd.parts j).Has (hd.parts i).rootLba →
    HoldsRoot disk (hd.parts i).rootLba

section Safe

variable {hd : HardDisk} {pad : Nat → Nat → UInt8} {c : Nat} {disk disk' : Disk}
  {log : List ScanEvent}

/-- A scan goes on as long as the partitions that are left look as they did at first. -/
theorem ScanSafe.exists_scanned (hsafe : ScanSafe hd disk) (hfit : PartsFit hd) {i n : Nat}
    (hn : i + n = 12) (mid : Disk)
    (hmid : ∀ j, i ≤ j → hd.Recorded j →
      (HasMagic mid (hd.parts j) ↔ HasMagic disk (hd.parts j))) :
    ∃ log disk', Scanned hd pad c i mid log disk' ∧ ∀ j, i ≤ j → hd.Recorded j →
      (.formatting c j ∈ log ↔ ¬ HasMagic disk (hd.parts j)) := by
  induction n generalizing i mid with
  | zero =>
    obtain rfl : i = 12 := by omega
    exact ⟨[], mid, .done, fun j hle hj => absurd hj.1 (by omega)⟩
  | succ n ih =>
    by_cases hcnt : (hd.parts i).secCnt = 0
    · obtain ⟨log, disk', hscan, hlog⟩ := ih (show i + 1 + n = 12 by omega) mid
        fun j hle hj => hmid j (by omega) hj
      refine ⟨log, disk', .skip (by omega) hcnt hscan, fun j hle hj => ?_⟩
      refine hlog j (Nat.lt_of_le_of_ne hle ?_) hj
      rintro rfl
      exact hj.2 hcnt
    · have hi : hd.Recorded i := ⟨by omega, hcnt⟩
      by_cases hmagic : HasMagic mid (hd.parts i)
      · obtain ⟨log, disk', hscan, hlog⟩ := ih (show i + 1 + n = 12 by omega) mid
          fun j hle hj => hmid j (by omega) hj
        refine ⟨_, disk', .found hi (hsafe.readable i hi) hmagic hscan, fun j hle hj => ?_⟩
        rw [List.mem_cons, or_iff_right (by simp)]
        by_cases heq : i = j
        · subst heq
          refine iff_of_false (fun hmem => ?_) (not_not.mpr ((hmid i hle hi).mp hmagic))
          exact absurd (hscan.formatting hmem).1 (by omega)
        · exact hlog j (by omega) hj
      · have hnone := (hmid i (le_refl i) hi).not.mp hmagic
        have hacc := hsafe.accepted i hi hnone
        -- the partitions behind `i` keep their super block, or get a root directory in its place
        have hrest : ∀ j, i + 1 ≤ j → hd.Recorded j →
            (HasMagic (formatted (hd.parts i).startLba (hd.parts i).secCnt (pad i) mid)
            (hd.parts j) ↔
              HasMagic disk (hd.parts j)) := by
          intro j hle hj
          have hown := hfit.not_meta hi hj (by omega) hacc
          by_cases hroot : (hd.parts i).rootLba = ((hd.parts j).startLba + 1).toNat
          · refine iff_of_false (HoldsRoot.not_hasMagic (hroot ▸ holdsRoot_formatted))
              fun hhas => ?_
            exact hsafe.supers i j hi hj hnone (.inl hhas) hroot
          · exact (hasMagic_congr (hacc.sameSector hown hroot)).trans (hmid j (by omega) hj)
        obtain ⟨log, disk', hscan, hlog⟩ := ih (by omega) _ hrest
        refine ⟨_, disk', .format hi (hsafe.readable i hi) hmagic hacc hscan, fun j hle hj => ?_⟩
        rw [List.mem_cons]
        by_cases heq : i = j
        · subst heq
          exact iff_of_true (.inl rfl) hnone
        · rw [or_iff_right (by simp [Ne.symm heq])]
          exact hlog j (by omega) hj

theorem Scanned.not_meta_of_has {i : Nat} (h : Scanned hd pad c i disk log disk')
    (hfit : PartsFit hd) {j x : Nat} (hj : hd.Recorded j) (hx : (hd.parts j).Has x)
    (hnot : .formatting c j ∉ log) : ∀ k, .formatting c k ∈ log → ¬ (hd.parts k).Meta x := by
  intro k hk hmeta
  obtain ⟨-, hrec, hacc⟩ := h.formatting hk
  exact hnot (hfit.apart k j x hrec hj (hfit.has_of_meta hrec hacc hmeta) hx ▸ hk)

theorem Scanned.not_meta_of_super {i : Nat} (h : Scanned hd pad c i disk log disk')
    (hfit : PartsFit hd) {j : Nat} (hj : hd.Recorded j) (hnot : .formatting c j ∉ log) :
    ∀ k, .formatting c k ∈ log → ¬ (hd.parts k).Meta ((hd.parts j).startLba + 1).toNat := by
  intro k hk
  obtain ⟨-, hrec, hacc⟩ := h.formatting hk
  refine hfit.not_meta hrec hj ?_ hacc
  rintro rfl
  exact hnot hk

theorem ScanSafe.reached (hsafe : ScanSafe hd disk) (hfit : PartsFit hd)
    (h : Scanned hd pad c 0 disk log disk')
    (hlog : ∀ j, hd.Recorded j → (.formatting c j ∈ log ↔ ¬ HasMagic disk (hd.parts j))) :
    Reached hd c disk disk' log := by
  have hformats : ∀ k, .formatting c k ∈ log → ¬ HasMagic disk (hd.parts k) :=
    fun k hk => (hlog k (h.formatting hk).2.1).mp hk
  constructor
  · intro j hj
    by_cases hmem : .formatting c j ∈ log
    · obtain ⟨mid, more, hscan, hsub, -⟩ := h.after hmem
      have hnot : .formatting c j ∉ more := fun hk => absurd (hscan.formatting hk).1 (by omega)
      obtain ⟨-, hsame, -⟩ := hscan.sector (hscan.not_meta_of_super hfit hj hnot)
      refine (hasMagic_congr (hsame fun k hk => ?_)).mpr (h.formatting hmem).2.2.hasMagic
      obtain ⟨hlt, hrec, -⟩ := hscan.formatting hk
      exact hsafe.supers k j hrec hj (hformats k (hsub k hk)) (.inr hlt)
    · have hhas : HasMagic disk (hd.parts j) := not_not.mp ((hlog j hj).not.mp hmem)
      obtain ⟨-, hsame, -⟩ := h.sector (h.not_meta_of_super hfit hj hmem)
      refine (hasMagic_congr (hsame fun k hk => ?_)).mpr hhas
      exact hsafe.supers k j (h.formatting hk).2.1 hj (hformats k hk) (.inl hhas)
  · exact hlog
  · intro j hj hhas x hx
    have hmem : .formatting c j ∉ log := fun hk => hformats j hk hhas
    obtain ⟨hroot, hsame, -⟩ := h.sector (h.not_meta_of_has hfit hj hx hmem)
    by_cases hhit : ∃ k, .formatting c k ∈ log ∧ (hd.parts k).rootLba = x
    · obtain ⟨k, hk, rfl⟩ := hhit
      have hold := hsafe.keeps k j (h.formatting hk).2.1 hj (hformats k hk) hhas hx
      exact hold.sameSector (hroot k hk rfl)
    · exact hsame fun k hk heq => hhit ⟨k, hk, heq⟩

theorem Scanned.safe (h : Scanned hd pad c 0 disk log disk') (hfit : PartsFit hd)
    (hreached : Reached hd c disk disk' log) : ScanSafe hd disk := by
  constructor
  · intro i hi
    exact h.readable hi (Nat.zero_le i)
  · intro i hi hnone
    exact (h.formatting ((hreached.formats i hi).mpr hnone)).2.2
  · intro i j hi hj hnone hor hroot
    have hmem := (hreached.formats i hi).mpr hnone
    by_cases hj' : .formatting c j ∈ log
    · have hlt : j < i := hor.resolve_left ((hreached.formats j hj).mp hj')
      obtain ⟨mid, more, hscan, -, hall⟩ := h.after hj'
      have hnot : .formatting c j ∉ more := fun hk => absurd (hscan.formatting hk).1 (by omega)
      obtain ⟨hhold, -⟩ := hscan.sector (hscan.not_meta_of_super hfit hj hnot)
      exact (hhold i (hall i hlt hmem) hroot).not_hasMagic (hreached.magic j hj)
    · obtain ⟨hhold, -⟩ := h.sector (h.not_meta_of_super hfit hj hj')
      exact (hhold i hmem hroot).not_hasMagic (hreached.magic j hj)
  · intro i j hi hj hnone hhas hx
    have hmem := (hreached.formats i hi).mpr hnone
    have hnot : .formatting c j ∉ log := fun hk => (hreached.formats j hj).mp hk hhas
    obtain ⟨hhold, -⟩ := h.sector (h.not_meta_of_has hfit hj hx hnot)
    exact (holdsRoot_congr (hreached.keeps j hj hhas _ hx)).mp (hhold i hmem rfl)

end Safe

section Init

variable {devices : Nat → HardDisk} {pad : Nat → Nat → Nat → UInt8} {disks : Nat → Disk}

/-- `part_idx` is 12 after the first channel, so that no partition of the second is visited. -/
theorem filesysInit_eq_ok {s : Scan} : filesysInit devices pad disks = .ok s ↔ ∃ log disk',
    Scanned (devices 0) (pad 0) 0 0 (disks 0) log disk' ∧
      s = ⟨12, Function.update disks 0 disk', log⟩ := by
  rw [filesysInit, scanChannels, if_pos Nat.zero_lt_two, bind_eq_ok]
  simp only [scanParts_eq_ok (show 0 + 12 = 12 from rfl), List.nil_append]
  constructor
  · rintro ⟨-, ⟨log, disk', hscan, rfl⟩, hend⟩
    exact ⟨log, disk', hscan, (Except.ok.inj hend).symm⟩
  · rintro ⟨log, disk', hscan, rfl⟩
    exact ⟨_, ⟨log, disk', hscan, rfl⟩, rfl⟩

theorem Scanned.not_formatting {hd : HardDisk} {pad : Nat → Nat → UInt8} {c c' i j : Nat}
    {disk disk' : Disk} {log : List ScanEvent} (h : Scanned hd pad c i disk log disk')
    (hne : c' ≠ c) : .formatting c' j ∉ log := by
  induction h with
  | done => exact List.not_mem_nil
  | skip _ _ _ ih => exact ih
  | found _ _ _ _ ih => simpa using ih
  | format _ _ _ _ _ ih => simpa [hne] using ih

/-- The search of `filesys_init` reaches every partition if and only if those of the first channel
can be searched and those of the second have a file system already. -/
theorem filesysInit_reaches_iff (hfit : ∀ c < 2, PartsFit (devices c)) :
    (∃ s, filesysInit devices pad disks = .ok s ∧
      ∀ c < 2, Reached (devices c) c (disks c) (s.disks c) s.log) ↔
    ScanSafe (devices 0) (disks 0) ∧
      ∀ i, (devices 1).Recorded i → HasMagic (disks 1) ((devices 1).parts i) := by
  constructor
  · rintro ⟨s, hs, hreached⟩
    obtain ⟨log, disk', hscan, rfl⟩ := filesysInit_eq_ok.mp hs
    have hfirst := hreached 0 (by decide)
    have hsecond := hreached 1 (by decide)
    simp only [Function.update_self] at hfirst
    refine ⟨hscan.safe (hfit 0 (by decide)) hfirst, fun i hi => ?_⟩
    exact hsecond.magic i hi
  · rintro ⟨hsafe, hmagic⟩
    obtain ⟨log, disk', hscan, hlog⟩ := @hsafe.exists_scanned _ (pad 0) 0 _
      (hfit 0 (by decide)) 0 12 rfl (disks 0) fun _ _ _ => Iff.rfl
    refine ⟨_, filesysInit_eq_ok.mpr ⟨log, disk', hscan, rfl⟩, fun c hc => ?_⟩
    obtain rfl | rfl : c = 0 ∨ c = 1 := by omega
    · simp only [Function.update_self]
      exact hsafe.reached (hfit 0 hc) hscan fun j hj => hlog j (Nat.zero_le j) hj
    · refine ⟨hmagic, fun i hi => ?_, fun i hi hhas x hx k hk => rfl⟩
      exact iff_of_false (hscan.not_formatting (by decide)) (not_not.mpr (hmagic i hi))

end Init

def emptyDisk : HardDisk := ⟨fun _ => .recorded "" 0 0, 163840, by decide⟩

/-- The same disk with one primary partition. -/
def oneDisk : HardDisk :=
  { emptyDisk with parts := Function.update emptyDisk.parts 0 (.recorded "sdb1" 2048 20000) }

theorem emptyDisk_not_recorded (i : Nat) : ¬ emptyDisk.Recorded i := fun h => h.2 rfl

theorem oneDisk_recorded {i : Nat} (h : oneDisk.Recorded i) : i = 0 := by
  by_contra hne
  refine h.2 ?_
  simp only [oneDisk, Function.update_of_ne hne]
  rfl

theorem emptyDisk_fits : PartsFit emptyDisk :=
  ⟨fun i h => absurd h (emptyDisk_not_recorded i),
  fun i _ _ h => absurd h (emptyDisk_not_recorded i)⟩

theorem oneDisk_fits : PartsFit oneDisk := by
  constructor
  · intro i hi
    obtain rfl := oneDisk_recorded hi
    decide
  · intro i j x hi hj _ _
    rw [oneDisk_recorded hi, oneDisk_recorded hj]

theorem filesysInit_reaches_iff_oneDisk :
    let devices := fun c => if c = 0 then oneDisk else emptyDisk
    (∃ s, filesysInit devices (fun _ _ _ => 0) (fun _ _ => 0) = .ok s ∧
      ∀ c < 2, Reached (devices c) c (fun _ => 0) (s.disks c) s.log) ↔
    ScanSafe oneDisk (fun _ => 0) ∧
      ∀ i, emptyDisk.Recorded i → HasMagic (fun _ => 0) (emptyDisk.parts i) :=
  filesysInit_reaches_iff fun c hc => by
    obtain rfl | rfl : c = 0 ∨ c = 1 := by omega
    · exact oneDisk_fits
    · exact emptyDisk_fits

/-- A partition on the second channel, and none on the first: the search ends, and the partition has
no file system. -/
theorem filesysInit_reaches_fails :
    let devices := fun c => if c = 0 then emptyDisk else oneDisk
    ∃ s, filesysInit devices (fun _ _ _ => 0) (fun _ _ => 0) = .ok s ∧ (devices 1).Recorded 0 ∧
      ¬ HasMagic (s.disks 1) ((devices 1).parts 0) ∧
      ¬ ∀ c < 2, Reached (devices c) c (fun _ => 0) (s.disks c) s.log := by
  intro devices
  have hnone := emptyDisk_not_recorded
  have hsafe : ScanSafe emptyDisk fun _ => 0 :=
    ⟨fun i h => absurd h (hnone i), fun i h => absurd h (hnone i), fun i _ h => absurd h (hnone i),
      fun i _ h => absurd h (hnone i)⟩
  obtain ⟨log, disk', hscan, -⟩ :=
    @hsafe.exists_scanned _ (fun _ _ => 0) 0 _ emptyDisk_fits 0 12 rfl
    (fun _ => 0) fun _ _ _ => Iff.rfl
  have hrec : (devices 1).Recorded 0 := by decide
  have hmagic : ¬ HasMagic (fun _ => 0) (oneDisk.parts 0) := by decide
  refine ⟨_, filesysInit_eq_ok.mpr ⟨log, disk', hscan, rfl⟩, hrec, hmagic, fun hreached => ?_⟩
  exact hmagic ((hreached 1 (by decide)).magic 0 hrec)

end OriginOS
