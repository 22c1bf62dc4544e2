import OriginOS.Fs.Dir
import OriginOS.Kernel.BitmapWord

/-! `sync_dir_entry` in a kernel that is compiled with `NDEBUG`, where `block_bitmap_alloc` finds no
block and returns -1, and what a call that returns false leaves behind.

Without its `ASSERT`s the driver passes on any sector number. What the drive makes of it is a
parameter. The bit numbers are the 32-bit words of the machine. -/

namespace OriginOS

open Lib

/-- The sector that a drive accesses when it is sent a sector number, or `none` when it reports an
error and the driver panics. -/
abbrev Drive := UInt32 → Option Nat

/-- The ways in which a call does not return: an assertion that is left, an error of the drive, a
division by 0, and the loop over the entries whose `uint8_t` counter never gets to the end. -/
inductive SyncStop where
  | panic (p : Panic)
  | drive (lba : UInt32)
  | divide
  | spin
deriving DecidableEq, Repr

namespace Ndebug

def ofPanic {α : Type} : Except Panic α → Except SyncStop α
  | .ok a => .ok a
  | .error p => .error (.panic p)

section Model

variable (drive : Drive) (pDe : Nat → UInt8)

def ideRead (disk : Disk) (lba : UInt32) (buf : Nat → UInt8) : Except SyncStop (Nat → UInt8) :=
  match drive lba with
  | some x => .ok (readSectors disk buf x 1)
  | none => .error (.drive lba)

def ideWrite (disk : Disk) (lba : UInt32) (buf : Nat → UInt8) : Except SyncStop Disk :=
  match drive lba with
  | some x => .ok (writeSectors disk buf x 1)
  | none => .error (.drive lba)

def blockBitmapAlloc (part : Partition) : Except SyncStop (UInt32 × Partition) := do
  let scan ← ofPanic (wordScan true part.blockBitmap 1)
  if scan.result = -1 then pure (0xffffffff, part)
  else do
    let bitIdx := (scan.result % 2 ^ 32).toNat
    let blockBitmap ← ofPanic (bitmapSet true part.blockBitmap bitIdx 1)
    pure (part.sb.dataStartLba + .ofNat bitIdx, { part with blockBitmap })

def bitmapSync (part : Partition) (bitIdx : UInt32) (disk : Disk) : Except SyncStop Disk :=
  ideWrite drive disk (part.sb.blockBitmapLba + bitIdx / 4096)
    fun k => part.blockBitmap.bits ((bitIdx % 4096).toNat + k)

def findUnknown (ioBuf : Nat → UInt8) (dirEntriesPerSec : Nat) : Except SyncStop (Option Nat) :=
  match OriginOS.findUnknown ioBuf (min dirEntriesPerSec 256) 256 0 with
  | some dirEntryIdx => .ok (some dirEntryIdx)
  | none => if dirEntriesPerSec < 256 then .ok none else .error .spin

/-- The entry becomes the first of a new block. -/
def writeEntry (blockLba : UInt32) (s : DirSync) : Except SyncStop (Bool × DirSync) := do
  let dirEntrySize := s.part.sb.dirEntrySize
  let ioBuf := copyTo (fill s.ioBuf 0 512 0) 0 pDe dirEntrySize.toNat
  let disk ← ideWrite drive s.disk blockLba ioBuf
  pure (true, { s with
    disk, ioBuf, dirInode := { s.dirInode with iSize := s.dirInode.iSize + dirEntrySize } })

/-- The slot 12 is the first without a block, and `i_sectors[12]` has been given one: a second block
is allocated, or the first is given back. -/
def syncIndirect (allBlocks : Nat → UInt32) (s : DirSync) : Except SyncStop (Bool × DirSync) := do
  let (blockLba, part) ← blockBitmapAlloc s.part
  if blockLba = 0xffffffff then do
    let blockBitmapIdx := getElem s.dirInode.iSectors 12 Inode.indirect_lt - part.sb.dataStartLba
    let blockBitmap ← ofPanic (bitmapSet true part.blockBitmap blockBitmapIdx.toNat 0)
    pure (false, { s with
      part := { part with blockBitmap }
      dirInode := { s.dirInode with iSectors := s.dirInode.iSectors.setIfInBounds 12 0 } })
  else do
    let disk ← bitmapSync drive part (blockLba - part.sb.dataStartLba) s.disk
    let allBlocks := Function.update allBlocks 12 blockLba
    let disk ← ideWrite drive disk (getElem s.dirInode.iSectors 12 Inode.indirect_lt)
      (indirectBytes allBlocks)
    writeEntry drive pDe blockLba { s with part, disk }

def syncNewBlock (allBlocks : Nat → UInt32) (blockIdx : Nat) (s : DirSync) :
    Except SyncStop (Bool × DirSync) := do
  let (blockLba, part) ← blockBitmapAlloc s.part
  if blockLba = 0xffffffff then pure (false, { s with part })
  else do
    let disk ← bitmapSync drive part (blockLba - part.sb.dataStartLba) s.disk
    if blockIdx < 12 then
      writeEntry drive pDe blockLba { s with
        part, disk
        dirInode := { s.dirInode with
          iSectors := s.dirInode.iSectors.setIfInBounds blockIdx blockLba } }
    else if blockIdx = 12 then
      syncIndirect drive pDe allBlocks { s with
        part, disk
        dirInode := { s.dirInode with
          iSectors := s.dirInode.iSectors.setIfInBounds 12 blockLba } }
    else do
      let allBlocks := Function.update allBlocks blockIdx blockLba
      let disk ← ideWrite drive disk (getElem s.dirInode.iSectors 12 Inode.indirect_lt)
        (indirectBytes allBlocks)
      writeEntry drive pDe blockLba { s with part, disk }

/-- The loop over the slots, with `n` passes to go. -/
def syncLoop (allBlocks : Nat → UInt32) : Nat → Nat → DirSync →
    Except SyncStop (Bool × DirSync)
  | 0, _, s => pure (false, s)
  | n + 1, blockIdx, s =>
    if allBlocks blockIdx = 0 then syncNewBlock drive pDe allBlocks blockIdx s
    else do
      let dirEntrySize := s.part.sb.dirEntrySize
      let ioBuf ← ideRead drive s.disk (allBlocks blockIdx) s.ioBuf
      let found ← findUnknown ioBuf (512 / dirEntrySize).toNat
      match found with
      | some dirEntryIdx => do
        let ioBuf := copyTo ioBuf (24 * dirEntryIdx) pDe dirEntrySize.toNat
        let disk ← ideWrite drive s.disk (allBlocks blockIdx) ioBuf
        pure (true, { s with
          disk, ioBuf, dirInode := { s.dirInode with iSize := s.dirInode.iSize + dirEntrySize } })
      | none => syncLoop allBlocks n (blockIdx + 1) { s with ioBuf }

def syncDirEntry (s : DirSync) : Except SyncStop (Bool × DirSync) :=
  if s.part.sb.dirEntrySize = 0 then .error .divide
  else syncLoop drive pDe (directBlocks s.dirInode) 140 0 s

end Model

end Ndebug

/-! ### The allocation -/

namespace Bitmap

variable {btmp : Bitmap} {i : Nat}

theorem put_eq_self {value : Bool} (h : btmp.bit i = value) : btmp.put i value = btmp := by
  have hbyte : putByte (btmp.bits (i / 8)) (i % 8) value = btmp.bits (i / 8) := by
    refine UInt8.toBitVec_inj.mp (BitVec.eq_of_getLsbD_eq fun j hj => ?_)
    rw [getLsbD_putByte _ _ _ hj]
    split
    · next heq => rw [← heq, ← h]; rfl
    · rfl
  rw [put, hbyte, Function.update_eq_self]

theorem put_put (value value' : Bool) (h : btmp.bit i = value') :
    (btmp.put i value).put i value' = btmp := by
  have hbyte : putByte (putByte (btmp.bits (i / 8)) (i % 8) value) (i % 8) value' =
      btmp.bits (i / 8) := by
    refine UInt8.toBitVec_inj.mp (BitVec.eq_of_getLsbD_eq fun j hj => ?_)
    rw [getLsbD_putByte _ _ _ hj, getLsbD_putByte _ _ _ hj]
    split
    · next heq => rw [← heq, ← h]; rfl
    · rfl
  simp only [put, Function.update_self, Function.update_idem, hbyte, Function.update_eq_self]

/-- Bit `i` is the first clear bit and has a number that `bitmap_scan` can return: it is not -1, and
not the number of a bit before it. -/
def Marks (btmp : Bitmap) (i : Nat) : Prop := btmp.FirstClear i ∧ i < 2 ^ 32 - 1

end Bitmap

/-- `block_bitmap_alloc` returns -1: there is no clear bit, or the number of the first, or of its
block, is -1. -/
def Partition.NoBlock (part : Partition) : Prop :=
  ∀ i, part.blockBitmap.FirstClear i → i % 2 ^ 32 = 2 ^ 32 - 1 ∨ part.block i = 0xffffffff

namespace Ndebug

section Alloc

variable {part : Partition}

theorem blockBitmapAlloc_of_scan {sc : BitScan} {w : Nat}
    (hscan : wordScan true part.blockBitmap 1 = .ok sc) (hw : (sc.result % 2 ^ 32).toNat = w)
    (hne : sc.result ≠ -1) :
    blockBitmapAlloc part = .ok (part.block w, part.take w .blockBitmap) := by
  unfold blockBitmapAlloc
  rw [hscan]
  refine (if_neg hne).trans ?_
  rw [hw, bitmapSet_one]
  rfl

theorem blockBitmapAlloc_of_none {sc : BitScan} (hscan : wordScan true part.blockBitmap 1 = .ok sc)
    (hnone : sc.result = -1) : blockBitmapAlloc part = .ok (0xffffffff, part) := by
  unfold blockBitmapAlloc
  rw [hscan]
  exact if_pos hnone

theorem blockBitmapAlloc_of_firstClear {i : Nat} (hi : part.blockBitmap.FirstClear i) :
    blockBitmapAlloc part = .ok (if i % 2 ^ 32 = 2 ^ 32 - 1 then (0xffffffff, part)
      else (part.block i, part.take (i % 2 ^ 32) .blockBitmap)) := by
  obtain ⟨seen, -, hscan⟩ := @wordScan_eq part.blockBitmap 1 i true hi
  rw [if_pos rfl] at hscan
  by_cases hlast : i % 2 ^ 32 = 2 ^ 32 - 1
  · rw [if_pos hlast, blockBitmapAlloc_of_none hscan (by dsimp only; unfold int32; omega)]
  · rw [if_neg hlast, blockBitmapAlloc_of_scan (w := i % 2 ^ 32) hscan
      (by dsimp only; unfold int32; omega) (by dsimp only; unfold int32; omega)]
    have hmod : part.block (i % 2 ^ 32) = part.block i := by
      have hword : UInt32.ofNat (i % 2 ^ 32) = UInt32.ofNat i := UInt32.toNat_inj.mp (by simp)
      rw [Partition.block, hword, Partition.block]
    rw [hmod]

theorem blockBitmapAlloc_spec (part : Partition) :
    ∃ r part', blockBitmapAlloc part = .ok (r, part') ∧
    (r = 0xffffffff ↔ part.NoBlock) ∧
    ((∃ i, part.blockBitmap.Marks i ∧ r = part.block i ∧ part' = part.take i .blockBitmap) ∨
      (∀ i, ¬ part.blockBitmap.Marks i) ∧ part' = part) := by
  by_cases hany : part.blockBitmap.AnyClear
  · obtain ⟨i, hi⟩ := hany.firstClear
    have halloc := blockBitmapAlloc_of_firstClear hi
    have hnone : part.NoBlock ↔ i % 2 ^ 32 = 2 ^ 32 - 1 ∨ part.block i = 0xffffffff :=
      ⟨fun h => h i hi, fun h j hj => hi.unique hj ▸ h⟩
    by_cases hlast : i % 2 ^ 32 = 2 ^ 32 - 1
    · rw [if_pos hlast] at halloc
      refine ⟨_, _, halloc, iff_of_true rfl (hnone.mpr (.inl hlast)), .inr ⟨fun j hj => ?_, rfl⟩⟩
      have := hi.unique hj.1
      have := hj.2
      omega
    rw [if_neg hlast] at halloc
    refine ⟨_, _, halloc, ⟨fun h => hnone.mpr (.inr h),
      fun h => (hnone.mp h).resolve_left hlast⟩, ?_⟩
    by_cases hlt : i < 2 ^ 32
    · rw [Nat.mod_eq_of_lt hlt] at hlast ⊢
      exact .inl ⟨i, ⟨hi, by omega⟩, rfl, rfl⟩
    · -- The word of the number is that of a bit that is set already.
      refine .inr ⟨fun j hj => ?_, ?_⟩
      · have := hi.unique hj.1
        have := hj.2
        omega
      · rw [Partition.take, Bitmap.put_eq_self (hi.set _ (by omega))]
  · obtain ⟨sc, hsc⟩ : ∃ sc, wordScan true part.blockBitmap 1 = .ok sc := by
      unfold wordScan
      dsimp only [assertUnless_true, ok_bind]
      split
      · exact ⟨_, rfl⟩
      · exact ⟨_, if_pos rfl⟩
    have hresult := (wordScan_full true hany).2 sc hsc
    refine ⟨0xffffffff, part, blockBitmapAlloc_of_none hsc hresult,
      iff_of_true rfl fun i hi => ?_, .inr ⟨fun i hi => ?_, rfl⟩⟩
    · exact absurd ⟨i, hi.lt, hi.clear⟩ hany
    · exact absurd ⟨i, hi.1.lt, hi.1.clear⟩ hany

theorem blockBitmapAlloc_marks {i : Nat} (hi : part.blockBitmap.Marks i) :
    blockBitmapAlloc part = .ok (part.block i, part.take i .blockBitmap) := by
  have hlt := hi.2
  rw [blockBitmapAlloc_of_firstClear hi.1, Nat.mod_eq_of_lt (show i < 2 ^ 32 by omega),
    if_neg (by omega)]

end Alloc

end Ndebug

/-! ### Runs with the assertions

A call that returns in a kernel compiled without `NDEBUG` returns the same in one compiled with
it. -/

/-- A drive with the sectors up to `max_lba`. -/
def plainDrive : Drive := fun lba => if lba.toNat ≤ maxLba then some lba.toNat else none

namespace Ndebug

/-- What the first computation returns, the second returns. -/
def Returns {α : Type} (x : Except Panic α) (y : Except SyncStop α) : Prop :=
  ∀ a, x = .ok a → y = .ok a

section Returns

variable {α β : Type} {x : Except Panic α} {y : Except SyncStop α} {f : α → Except Panic β}
  {g : α → Except SyncStop β}

theorem Returns.ok (a : α) : Returns (.ok a) (.ok a) := fun _ h => Except.ok.inj h ▸ rfl

theorem Returns.bind (h : Returns x y) (hf : ∀ a, x = .ok a → Returns (f a) (g a)) :
    Returns (x >>= f) (y >>= g) := by
  intro b hb
  obtain ⟨a, ha, hfa⟩ := exists_of_bind_eq_ok hb
  rw [h a ha]
  exact hf a ha b hfa

theorem Returns.assert {c : Bool} {p : Panic} {k : Unit → Except Panic α} (h : Returns (k ()) y) :
    Returns (OriginOS.assert c p >>= k) y := by
  intro a ha
  obtain ⟨⟨⟩, -, hk⟩ := exists_of_bind_eq_ok ha
  exact h a hk

theorem Returns.ite {c : Prop} [Decidable c] {x' : Except Panic α} {y' : Except SyncStop α}
    (h : c → Returns x y) (h' : ¬ c → Returns x' y') :
    Returns (if c then x else x') (if c then y else y') := by
  by_cases hc : c
  · rw [if_pos hc, if_pos hc]
    exact h hc
  · rw [if_neg hc, if_neg hc]
    exact h' hc

end Returns

section Runs

variable {pDe : Nat → UInt8} {allBlocks : Nat → UInt32} {disk : Disk} {buf : Nat → UInt8}
  {lba : UInt32} {part : Partition} {s : DirSync} {n i k : Nat}

theorem plainDrive_of_le (h : lba.toNat ≤ maxLba) : plainDrive lba = some lba.toNat := if_pos h

theorem ideRead_returns :
    Returns (OriginOS.ideRead disk lba.toNat buf 1) (ideRead plainDrive disk lba buf) := by
  intro b hb
  obtain ⟨htrans, rfl⟩ := ideRead_eq_ok.mp hb
  rw [ideRead, plainDrive_of_le htrans.2]

theorem ideWrite_returns :
    Returns (OriginOS.ideWrite disk lba.toNat buf 1) (ideWrite plainDrive disk lba buf) := by
  intro b hb
  obtain ⟨htrans, rfl⟩ := ideWrite_eq_ok.mp hb
  rw [ideWrite, plainDrive_of_le htrans.2]

theorem bitmapSync_returns {bitIdx : UInt32} :
    Returns (OriginOS.bitmapSync part bitIdx .blockBitmap disk)
      (bitmapSync plainDrive part bitIdx disk) := ideWrite_returns

theorem blockBitmapAlloc_returns (h : DirSane part) :
    Returns (OriginOS.blockBitmapAlloc part) (blockBitmapAlloc part) := by
  rintro ⟨r, part'⟩ halloc
  obtain ⟨i, hi, rfl, rfl⟩ := blockBitmapAlloc_eq_ok.mp halloc
  have hlt := hi.lt
  have hbits := h.fit.bits .blockBitmap
  simp only [Partition.bitmap] at hbits
  exact blockBitmapAlloc_marks ⟨hi, by omega⟩

theorem findUnknown_passes {m : Nat} (hn : 21 ≤ i + n) (hm : 21 ≤ i + m) :
    OriginOS.findUnknown buf 21 n i = OriginOS.findUnknown buf 21 m i := by
  induction n generalizing m i with
  | zero =>
    cases m with
    | zero => rfl
    | succ m => rw [OriginOS.findUnknown, OriginOS.findUnknown, if_neg (by omega)]
  | succ n ih =>
    cases m with
    | zero => rw [OriginOS.findUnknown, OriginOS.findUnknown, if_neg (by omega)]
    | succ m =>
      rw [OriginOS.findUnknown, OriginOS.findUnknown, @ih (i + 1) m (by omega) (by omega)]

theorem findUnknown_eq : findUnknown buf 21 = .ok (OriginOS.findUnknown buf 21 512 0) := by
  unfold findUnknown
  rw [show min 21 256 = 21 from rfl, findUnknown_passes (n := 256) (m := 512) (by omega) (by omega)]
  split
  · next heq => rw [heq]
  · next heq => rw [heq, if_pos (by decide)]

theorem writeEntry_returns : Returns (do
    let ioBuf := copyTo (fill s.ioBuf 0 512 0) 0 pDe s.part.sb.dirEntrySize.toNat
    let disk ← OriginOS.ideWrite s.disk lba.toNat ioBuf 1
    pure (true, { s with
      disk, ioBuf, dirInode := { s.dirInode with
        iSize := s.dirInode.iSize + s.part.sb.dirEntrySize } }))
    (writeEntry plainDrive pDe lba s) :=
  ideWrite_returns.bind fun _ _ => .ok _

theorem syncNewBlock_returns (h : DirSane s.part) :
    Returns (OriginOS.syncNewBlock pDe allBlocks k s)
      (syncNewBlock plainDrive pDe allBlocks k s) := by
  refine (blockBitmapAlloc_returns h).bind fun ⟨r, part⟩ halloc => ?_
  obtain ⟨i, -, rfl, rfl⟩ := blockBitmapAlloc_eq_ok.mp halloc
  refine .ite (fun _ => .ok _) fun _ => .assert (bitmapSync_returns.bind fun disk _ => ?_)
  refine .ite (fun _ => writeEntry_returns) fun _ => .ite (fun _ => ?_) fun _ => ?_
  · refine (blockBitmapAlloc_returns (h.take i)).bind fun ⟨r, part⟩ halloc => ?_
    obtain ⟨j, -, rfl, rfl⟩ := blockBitmapAlloc_eq_ok.mp halloc
    refine .ite (fun _ => ?_) fun _ => .assert ?_
    · dsimp only
      rw [bitmapSet_zero, bitmapSet_zero]
      exact .ok _
    · exact bitmapSync_returns.bind fun _ _ => ideWrite_returns.bind fun _ _ => writeEntry_returns
  · exact ideWrite_returns.bind fun _ _ => writeEntry_returns

theorem syncLoop_returns (h : DirSane s.part) (hn : i + n ≤ 140) :
    Returns (OriginOS.syncLoop pDe allBlocks n i s)
      (syncLoop plainDrive pDe allBlocks n i s) := by
  induction n generalizing i s with
  | zero => exact .ok _
  | succ n ih =>
    rw [OriginOS.syncLoop, syncLoop, if_pos (by omega)]
    refine .ite (fun _ => syncNewBlock_returns h) fun _ => ideRead_returns.bind fun ioBuf _ => ?_
    rw [h.entrySize, show (512 / 24 : UInt32).toNat = 21 from rfl, findUnknown_eq, except_ok_bind]
    cases OriginOS.findUnknown ioBuf 21 512 0 with
    | some m => exact ideWrite_returns.bind fun _ _ => .ok _
    | none => exact ih h (by omega)

theorem syncDirEntry_returns (h : DirSane s.part) :
    Returns (OriginOS.syncDirEntry pDe s) (syncDirEntry plainDrive pDe s) := by
  rw [syncDirEntry, if_neg (by rw [h.entrySize]; decide)]
  exact .assert (syncLoop_returns h (by omega))

end Runs

end Ndebug

/-! ### What must not change -/

section Trace

variable (drive : Drive) (s : DirSync)

def BitmapSector (x : Nat) : Prop :=
  ∃ j < s.part.sb.blockBitmapSects.toNat, drive (s.part.sb.blockBitmapLba + .ofNat j) = some x

/-- A sector of a block of the directory: a direct one, the indirect one, or one that the indirect
one has the number of. -/
def DirSector (x : Nat) : Prop :=
  ∃ b, b ≠ 0 ∧ drive b = some x ∧ (b ∈ s.dirInode.iSectors ∨
    ∃ y, getElem s.dirInode.iSectors 12 Inode.indirect_lt ≠ 0 ∧
      drive (getElem s.dirInode.iSectors 12 Inode.indirect_lt) = some y ∧
      ∃ k < 128, wordAt s.disk (512 * y + 4 * k) = b)

/-- The block bitmap in memory and on the disk, the inode of the directory and its blocks are the
same as before. -/
structure DirUnchanged (t : DirSync) : Prop where
  blockBitmap : t.part.blockBitmap = s.part.blockBitmap
  bitmapSectors : ∀ x, BitmapSector drive s x → SameSector s.disk t.disk x
  iSectors : t.dirInode.iSectors = s.dirInode.iSectors
  iSize : t.dirInode.iSize = s.dirInode.iSize
  dirSectors : ∀ x, DirSector drive s x → SameSector s.disk t.disk x

/-- There is a block that can be read and has no free entry. -/
def FullSlot (lba : UInt32) : Prop :=
  lba ≠ 0 ∧ ∃ x, drive lba = some x ∧
    Ndebug.findUnknown (readSectors s.disk s.ioBuf x 1) (512 / s.part.sb.dirEntrySize).toNat =
      .ok none

/-- `sync_dir_entry` gets to slot `k`, the first without a block. -/
structure SlotReached (k : Nat) : Prop where
  size : s.part.sb.dirEntrySize ≠ 0
  le : k ≤ 12
  free : directBlocks s.dirInode k = 0
  full : ∀ j < k, FullSlot drive s (directBlocks s.dirInode j)

/-- The bytes that `bitmap_sync` writes once bit `i` has been set. -/
def syncBytes (part : Partition) (i k : Nat) : UInt8 :=
  (part.blockBitmap.put i true).bits (i % 4096 + k)

/-- The states from which `sync_dir_entry` returns false and has changed something. Either the
number of the first free block is -1, and its bit stays set. Or the twelve direct blocks are full
and there is a block for `i_sectors[12]` but none for the entry: then the bit of a second block
whose number is -1 stays set, or a block in `i_sectors[12]` is forgotten, or the sector that
`bitmap_sync` has written for the first block is not written again. -/
inductive LeavesTrace : Prop
  | overflow {k i : Nat} : SlotReached drive s k → s.part.blockBitmap.Marks i →
    s.part.block i = 0xffffffff → LeavesTrace
  | indirect {i x : Nat} : SlotReached drive s 12 → s.part.blockBitmap.Marks i →
    s.part.block i ≠ 0xffffffff → (s.part.take i .blockBitmap).NoBlock →
    drive (s.part.sb.blockBitmapLba + .ofNat i / 4096) = some x →
    ((∃ j, (s.part.blockBitmap.put i true).Marks j) ∨
      getElem s.dirInode.iSectors 12 Inode.indirect_lt ≠ 0 ∨
      ((BitmapSector drive s x ∨ DirSector drive s x) ∧
        ∃ k < 512, s.disk (512 * x + k) ≠ syncBytes s.part i k)) → LeavesTrace

end Trace

namespace Ndebug

section Loop

variable {drive : Drive} {pDe : Nat → UInt8} {allBlocks : Nat → UInt32} {s t : DirSync}
  {b : Nat → UInt8} {n i k : Nat}

theorem readSectors_behind (h : ∀ a, 512 ≤ a → b a = s.ioBuf a) (x : Nat) :
    readSectors s.disk b x 1 = readSectors s.disk s.ioBuf x 1 := by
  funext a
  rcases Nat.lt_or_ge a 512 with ha | ha
  · rw [readSectors_apply (by omega), readSectors_apply (by omega)]
  · rw [readSectors_of_not (by omega), readSectors_of_not (by omega), h a ha]

variable (pDe) in
theorem syncLoop_full (hb : ∀ a, 512 ≤ a → b a = s.ioBuf a) (h : FullSlot drive s (allBlocks i)) :
    ∃ b', (∀ a, 512 ≤ a → b' a = s.ioBuf a) ∧
      syncLoop drive pDe allBlocks (n + 1) i { s with ioBuf := b } =
        syncLoop drive pDe allBlocks n (i + 1) { s with ioBuf := b' } := by
  obtain ⟨hne, x, hx, hnone⟩ := h
  refine ⟨readSectors s.disk s.ioBuf x 1, fun a ha => readSectors_of_not (by omega), ?_⟩
  rw [syncLoop, if_neg hne]
  simp only [ideRead, hx, readSectors_behind hb]
  show (findUnknown (readSectors s.disk s.ioBuf x 1) (512 / s.part.sb.dirEntrySize).toNat >>= _) = _
  rw [hnone]
  rfl

variable (pDe) in
theorem syncLoop_reached (hfull : ∀ j < k, FullSlot drive s (allBlocks j)) (hk : allBlocks k = 0)
    (hb : ∀ a, 512 ≤ a → b a = s.ioBuf a) (hi : i ≤ k) (hn : k < i + n) :
    ∃ b', syncLoop drive pDe allBlocks n i { s with ioBuf := b } =
      syncNewBlock drive pDe allBlocks k { s with ioBuf := b' } := by
  induction n generalizing i b with
  | zero => omega
  | succ n ih =>
    rcases Nat.lt_or_ge i k with hlt | hge
    · obtain ⟨b', hb', hstep⟩ := syncLoop_full pDe (n := n) hb (hfull i hlt)
      obtain ⟨b'', hrest⟩ := @ih b' (i + 1) hb' (by omega) (by omega)
      exact ⟨b'', hstep.trans hrest⟩
    · obtain rfl : i = k := by omega
      exact ⟨b, by rw [syncLoop, if_pos hk]⟩

theorem syncLoop_false (h : syncLoop drive pDe allBlocks n i { s with ioBuf := b } = .ok (false, t))
    (hb : ∀ a, 512 ≤ a → b a = s.ioBuf a) (hzero : allBlocks 12 = 0) (hi : i ≤ 12)
    (hn : 12 < i + n) :
    ∃ k, i ≤ k ∧ k ≤ 12 ∧ allBlocks k = 0 ∧
      ∀ j, i ≤ j → j < k → FullSlot drive s (allBlocks j) := by
  induction n generalizing i b with
  | zero => omega
  | succ n ih =>
    by_cases hfree : allBlocks i = 0
    · exact ⟨i, Nat.le_refl i, hi, hfree, fun j hj hj' => by omega⟩
    have hlt : i < 12 := by
      rcases Nat.lt_or_ge i 12 with hlt | hge
      · exact hlt
      · exact absurd (show i = 12 by omega) (by rintro rfl; exact hfree hzero)
    have hfull : FullSlot drive s (allBlocks i) := by
      rw [syncLoop, if_neg hfree] at h
      obtain ⟨ioBuf, hread, h⟩ := exists_of_bind_eq_ok h
      unfold ideRead at hread
      split at hread
      · next x hx =>
        obtain rfl := Except.ok.inj hread
        rw [readSectors_behind hb] at h
        obtain ⟨found, hfind, h⟩ := exists_of_bind_eq_ok h
        cases found with
        | none => exact ⟨hfree, x, hx, hfind⟩
        | some m =>
          obtain ⟨disk, -, h⟩ := exists_of_bind_eq_ok h
          exact absurd (congrArg Prod.fst (Except.ok.inj h)) Bool.false_ne_true.symm
      · cases hread
    obtain ⟨b', hb', hstep⟩ := syncLoop_full pDe (n := n) hb hfull
    rw [hstep] at h
    obtain ⟨k, hik, hk, hkfree, hrest⟩ := ih h hb' (by omega) (by omega)
    refine ⟨k, by omega, hk, hkfree, fun j hj hj' => ?_⟩
    rcases Nat.eq_or_lt_of_le hj with rfl | hj
    · exact hfull
    · exact hrest j hj hj'

end Loop

end Ndebug

namespace Ndebug

section New

variable {drive : Drive} {pDe : Nat → UInt8} {allBlocks : Nat → UInt32} {s t : DirSync}
  {part : Partition} {i x : Nat}

theorem writeEntry_ne_false {lba : UInt32} : writeEntry drive pDe lba s ≠ .ok (false, t) := by
  intro h
  obtain ⟨disk, -, h⟩ := exists_of_bind_eq_ok h
  exact absurd (congrArg Prod.fst (Except.ok.inj h)) Bool.false_ne_true.symm

/-- The state after the second allocation has failed. -/
def undone (s : DirSync) (part : Partition) : DirSync :=
  { s with
    part := { part with blockBitmap :=
      part.blockBitmap.put (getElem s.dirInode.iSectors 12 Inode.indirect_lt -
        part.sb.dataStartLba).toNat false }
    dirInode := { s.dirInode with iSectors := s.dirInode.iSectors.setIfInBounds 12 0 } }

theorem syncIndirect_none (h : blockBitmapAlloc s.part = .ok (0xffffffff, part)) :
    syncIndirect drive pDe allBlocks s = .ok (false, undone s part) := by
  unfold syncIndirect
  rw [h, except_ok_bind]
  dsimp only
  rw [if_pos rfl, bitmapSet_zero]
  rfl

theorem syncIndirect_false (h : syncIndirect drive pDe allBlocks s = .ok (false, t)) :
    ∃ part, blockBitmapAlloc s.part = .ok (0xffffffff, part) ∧ t = undone s part := by
  obtain ⟨⟨r, part⟩, halloc, hrest⟩ := exists_of_bind_eq_ok h
  by_cases hr : r = 0xffffffff
  · subst hr
    rw [syncIndirect_none halloc] at h
    exact ⟨part, halloc, (congrArg Prod.snd (Except.ok.inj h)).symm⟩
  · dsimp only at hrest
    rw [if_neg hr] at hrest
    obtain ⟨disk, -, hrest⟩ := exists_of_bind_eq_ok hrest
    obtain ⟨disk', -, hrest⟩ := exists_of_bind_eq_ok hrest
    exact absurd hrest writeEntry_ne_false

/-- The state in which the second block is allocated, after bit `i` has been set and its sector has
been written to sector `x`. -/
def linked (s : DirSync) (i x : Nat) : DirSync :=
  { s with
    part := s.part.take i .blockBitmap
    disk := writeSectors s.disk (syncBytes s.part i) x 1
    dirInode := { s.dirInode with
      iSectors := s.dirInode.iSectors.setIfInBounds 12 (s.part.block i) } }

theorem block_sub {part : Partition} (i : Nat) :
    part.block i - part.sb.dataStartLba = .ofNat i := by
  rw [Partition.block, UInt32.add_comm, UInt32.add_sub_cancel]

theorem toNat_ofNat_of_marks {btmp : Bitmap} (h : btmp.Marks i) : (UInt32.ofNat i).toNat = i :=
  UInt32.toNat_ofNat_of_lt' (show i < 2 ^ 32 by have := h.2; omega)

theorem bitmapSync_marks (hi : s.part.blockBitmap.Marks i)
    (hx : drive (s.part.sb.blockBitmapLba + .ofNat i / 4096) = some x) :
    bitmapSync drive (s.part.take i .blockBitmap) (.ofNat i) s.disk =
      .ok (writeSectors s.disk (syncBytes s.part i) x 1) := by
  have hmod : (UInt32.ofNat i % 4096).toNat = i % 4096 := by
    rw [UInt32.toNat_mod, toNat_ofNat_of_marks hi]
    rfl
  unfold bitmapSync ideWrite
  rw [hmod, Partition.sb_take, hx]
  rfl

theorem syncNewBlock_indirect_marks (hi : s.part.blockBitmap.Marks i)
    (hne : s.part.block i ≠ 0xffffffff)
    (hx : drive (s.part.sb.blockBitmapLba + .ofNat i / 4096) = some x) :
    syncNewBlock drive pDe allBlocks 12 s = syncIndirect drive pDe allBlocks (linked s i x) := by
  unfold syncNewBlock
  rw [blockBitmapAlloc_marks hi]
  refine (if_neg hne).trans ?_
  rw [Partition.sb_take, block_sub, bitmapSync_marks hi hx]
  rfl

/-- How `sync_dir_entry` fails at slot `k`: there is no first block, or no second one. -/
theorem syncNewBlock_false {k : Nat} (hk : k ≤ 12)
    (h : syncNewBlock drive pDe allBlocks k s = .ok (false, t)) :
    (∃ part, blockBitmapAlloc s.part = .ok (0xffffffff, part) ∧ t = { s with part }) ∨
    (k = 12 ∧ ∃ i x, s.part.blockBitmap.Marks i ∧ s.part.block i ≠ 0xffffffff ∧
      drive (s.part.sb.blockBitmapLba + .ofNat i / 4096) = some x ∧
      ∃ part, blockBitmapAlloc (s.part.take i .blockBitmap) = .ok (0xffffffff, part) ∧
        t = undone (linked s i x) part) := by
  obtain ⟨r, part, halloc, -, hmark⟩ := blockBitmapAlloc_spec s.part
  have hrun := h
  unfold syncNewBlock at h
  rw [halloc] at h
  by_cases hr : r = 0xffffffff
  · subst hr
    exact .inl ⟨part, halloc, (congrArg Prod.snd (Except.ok.inj h)).symm⟩
  refine .inr ?_
  obtain ⟨disk, hsync, h⟩ := exists_of_bind_eq_ok (((if_neg hr).symm.trans h :))
  rcases Nat.lt_or_ge k 12 with hlt | hge
  · rw [if_pos hlt] at h
    exact absurd h writeEntry_ne_false
  obtain rfl : k = 12 := by omega
  rw [if_neg (by decide), if_pos rfl] at h
  refine ⟨rfl, ?_⟩
  rcases hmark with ⟨i, hi, rfl, rfl⟩ | ⟨hnone, rfl⟩
  · obtain ⟨x, hx⟩ : ∃ x, drive (s.part.sb.blockBitmapLba + .ofNat i / 4096) = some x := by
      rw [Partition.sb_take, block_sub] at hsync
      unfold bitmapSync ideWrite at hsync
      rw [Partition.sb_take] at hsync
      split at hsync
      · next x hx => exact ⟨x, hx⟩
      · cases hsync
    rw [syncNewBlock_indirect_marks hi hr hx] at hrun
    obtain ⟨part, halloc', rfl⟩ := syncIndirect_false hrun
    exact ⟨i, x, hi, hr, hx, part, halloc', rfl⟩
  · -- Without a bit set, the second allocation gives what the first gave.
    obtain ⟨part, halloc', -⟩ := syncIndirect_false h
    exact absurd (congrArg Prod.fst (Except.ok.inj (halloc.symm.trans halloc'))) hr

end New

end Ndebug

section Undo

variable {drive : Drive} {pDe : Nat → UInt8} {s t : DirSync} {i x k : Nat}

variable (pDe) in
theorem SlotReached.syncDirEntry_eq (h : SlotReached drive s k) :
    ∃ b, Ndebug.syncDirEntry drive pDe s =
      Ndebug.syncNewBlock drive pDe (directBlocks s.dirInode) k { s with ioBuf := b } := by
  have hle := h.le
  obtain ⟨b, hrun⟩ := Ndebug.syncLoop_reached pDe (b := s.ioBuf) (n := 140) (i := 0)
    h.full h.free (fun _ _ => rfl) (by omega) (by omega)
  exact ⟨b, (if_neg h.size).trans hrun⟩

theorem exists_slotReached (h : Ndebug.syncDirEntry drive pDe s = .ok (false, t)) :
    ∃ k, SlotReached drive s k := by
  have hsize : s.part.sb.dirEntrySize ≠ 0 := by
    intro hzero
    rw [Ndebug.syncDirEntry, if_pos hzero] at h
    cases h
  rw [Ndebug.syncDirEntry, if_neg hsize] at h
  obtain ⟨k, -, hk, hfree, hfull⟩ := Ndebug.syncLoop_false (b := s.ioBuf) h (fun _ _ => rfl) rfl
    (by omega) (by omega)
  exact ⟨k, hsize, hk, hfree, fun j hj => hfull j (Nat.zero_le j) hj⟩

@[simp] theorem Ndebug.linked_sector_twelve :
    getElem (Ndebug.linked s i x).dirInode.iSectors 12 Inode.indirect_lt = s.part.block i := by
  simp [Ndebug.linked]

/-- What is left when the second allocation sets no bit: the bit of the first block is clear again,
and the rest is the sector on the disk and `i_sectors[12]`. -/
theorem Ndebug.undone_linked (hi : s.part.blockBitmap.Marks i) :
    (Ndebug.undone (Ndebug.linked s i x) (s.part.take i .blockBitmap)).part.blockBitmap =
      s.part.blockBitmap := by
  show (s.part.blockBitmap.put i true).put _ false = _
  rw [Ndebug.linked_sector_twelve, Partition.sb_take, Ndebug.block_sub,
    Ndebug.toNat_ofNat_of_marks hi, Bitmap.put_put _ _ hi.1.clear]

theorem Ndebug.undone_iSectors {part : Partition}
    (hzero : getElem s.dirInode.iSectors 12 Inode.indirect_lt = 0) :
    (Ndebug.undone (Ndebug.linked s i x) part).dirInode.iSectors = s.dirInode.iSectors := by
  refine Vector.ext fun j hj => ?_
  by_cases hj12 : j = 12
  · subst hj12
    simp [Ndebug.undone, Ndebug.linked, hzero]
  · simp [Ndebug.undone, Ndebug.linked, Ne.symm hj12]

theorem sameSector_linked {y : Nat}
    (h : y = x → ∀ k < 512, s.disk (512 * x + k) = syncBytes s.part i k) :
    SameSector s.disk (Ndebug.linked s i x).disk y := by
  by_cases hy : y = x
  · subst hy
    intro k hk
    rw [h rfl k hk]
    exact writeSectors_apply (by omega)
  · exact sameSector_writeSectors (by omega)

/-- A call that fails and does not start from one of the states in question changes nothing. -/
theorem DirUnchanged.of_not_leavesTrace (hnot : ¬ LeavesTrace drive s)
    (h : Ndebug.syncDirEntry drive pDe s = .ok (false, t)) : DirUnchanged drive s t := by
  obtain ⟨k, hk⟩ := exists_slotReached h
  obtain ⟨b, hrun⟩ := hk.syncDirEntry_eq pDe
  rw [hrun] at h
  rcases Ndebug.syncNewBlock_false hk.le h with ⟨part, halloc, rfl⟩ |
    ⟨rfl, i, x, hi, hne, hx, part, halloc, rfl⟩
  · obtain ⟨r, part', halloc', hr, hmark⟩ := Ndebug.blockBitmapAlloc_spec s.part
    obtain ⟨rfl, rfl⟩ := Prod.mk.inj (Except.ok.inj (halloc'.symm.trans halloc))
    rcases hmark with ⟨i, hi, hblock, -⟩ | ⟨-, rfl⟩
    · exact absurd (.overflow hk hi hblock.symm) hnot
    · exact ⟨rfl, fun _ _ _ _ => rfl, rfl, rfl, fun _ _ _ _ => rfl⟩
  · obtain ⟨r, part', halloc', hr, hmark⟩ :=
      Ndebug.blockBitmapAlloc_spec (s.part.take i .blockBitmap)
    obtain ⟨rfl, rfl⟩ := Prod.mk.inj (Except.ok.inj (halloc'.symm.trans halloc))
    have hclean : ¬ ((∃ j, (s.part.blockBitmap.put i true).Marks j) ∨
        s.dirInode.iSectors[12] ≠ 0 ∨ ((BitmapSector drive s x ∨ DirSector drive s x) ∧
          ∃ k < 512, s.disk (512 * x + k) ≠ syncBytes s.part i k)) :=
      fun hleft => hnot (.indirect hk hi hne (hr.mp rfl) hx hleft)
    simp only [not_or, not_and, not_exists, not_not] at hclean
    obtain ⟨hmarks, hzero, hbytes⟩ := hclean
    rcases hmark with ⟨j, hj, -⟩ | ⟨-, rfl⟩
    · exact absurd hj (hmarks j)
    have hsame : ∀ y, BitmapSector drive s y ∨ DirSector drive s y →
        SameSector s.disk (Ndebug.linked s i x).disk y :=
      fun y hy => sameSector_linked fun heq => hbytes (heq ▸ hy)
    exact ⟨Ndebug.undone_linked hi, fun y hy => hsame y (.inl hy),
      Ndebug.undone_iSectors hzero, rfl,
      fun y hy => hsame y (.inr hy)⟩

variable (pDe) in
theorem SlotReached.syncDirEntry_undone {part : Partition} (hk : SlotReached drive s 12)
    (hi : s.part.blockBitmap.Marks i) (hne : s.part.block i ≠ 0xffffffff)
    (hx : drive (s.part.sb.blockBitmapLba + .ofNat i / 4096) = some x)
    (halloc : Ndebug.blockBitmapAlloc (s.part.take i .blockBitmap) = .ok (0xffffffff, part)) :
    ∃ b, Ndebug.syncDirEntry drive pDe s =
      .ok (false, Ndebug.undone (Ndebug.linked { s with ioBuf := b } i x) part) := by
  obtain ⟨b, hrun⟩ := hk.syncDirEntry_eq pDe
  refine ⟨b, ?_⟩
  rw [hrun, Ndebug.syncNewBlock_indirect_marks (s := { s with ioBuf := b }) hi hne hx]
  exact Ndebug.syncIndirect_none halloc

variable (pDe) in
theorem LeavesTrace.exists_changed (h : LeavesTrace drive s) :
    ∃ t, Ndebug.syncDirEntry drive pDe s = .ok (false, t) ∧ ¬ DirUnchanged drive s t := by
  cases h with
  | @overflow k i hk hi hblock =>
    obtain ⟨b, hrun⟩ := hk.syncDirEntry_eq pDe
    have halloc := Ndebug.blockBitmapAlloc_marks hi
    refine ⟨{ s with part := s.part.take i .blockBitmap, ioBuf := b }, ?_, fun hsame => ?_⟩
    · rw [hrun, Ndebug.syncNewBlock, halloc]
      exact if_pos hblock
    · have hbit : (s.part.blockBitmap.put i true).bit i = s.part.blockBitmap.bit i :=
        congrArg (·.bit i) hsame.blockBitmap
      rw [Bitmap.bit_put, if_pos rfl, hi.1.clear] at hbit
      cases hbit
  | @indirect i x hk hi hne hnone hx hleft =>
    obtain ⟨r, part, halloc, hr, hmark⟩ :=
      Ndebug.blockBitmapAlloc_spec (s.part.take i .blockBitmap)
    obtain rfl := hr.mpr hnone
    obtain ⟨b, hrun⟩ := hk.syncDirEntry_undone pDe hi hne hx halloc
    refine ⟨_, hrun, fun hsame => ?_⟩
    · rcases hleft with ⟨j, hj⟩ | hold | ⟨hsector, m, hm, hbyte⟩
      · obtain ⟨j', hj', -, rfl⟩ := hmark.resolve_right fun hnone => hnone.1 j hj
        obtain rfl : j = j' := hj.1.unique hj'.1
        have hne' : j ≠ i := by
          rintro rfl
          have hclear := hj.1.clear
          rw [Bitmap.bit_put, if_pos rfl] at hclear
          cases hclear
        have hclear := hj.1.clear
        rw [Bitmap.bit_put, if_neg hne'] at hclear
        have hbit : (((s.part.blockBitmap.put i true).put j true).put (UInt32.ofNat i).toNat
            false).bit j = s.part.blockBitmap.bit j := by
          rw [← hsame.blockBitmap, ← @Ndebug.block_sub s.part i]
          simp [Ndebug.undone, Partition.take]
        rw [Ndebug.toNat_ofNat_of_marks hi, Bitmap.bit_put, if_neg hne', Bitmap.bit_put, if_pos rfl,
          hclear] at hbit
        cases hbit
      · refine hold ?_
        have hsector := congrArg (fun v : Vector UInt32 13 => v[12]) hsame.iSectors
        simpa [Ndebug.undone] using hsector.symm
      · have hdisk : SameSector s.disk (writeSectors s.disk (syncBytes s.part i) x 1) x :=
          hsector.elim (hsame.bitmapSectors x) (hsame.dirSectors x)
        exact hbyte ((hdisk m hm).symm.trans (writeSectors_apply (by omega)))

end Undo

/-- A call of `sync_dir_entry` that returns false leaves everything as it was, just when it does not
start from one of the states in which it fails too late. -/
theorem sync_dir_entry_undo_iff (drive : Drive) (pDe : Nat → UInt8) (s : DirSync) :
    (∀ t, Ndebug.syncDirEntry drive pDe s = .ok (false, t) → DirUnchanged drive s t) ↔
      ¬ LeavesTrace drive s := by
  refine ⟨fun h htrace => ?_, fun hnot t => DirUnchanged.of_not_leavesTrace hnot⟩
  obtain ⟨t, ht, hchanged⟩ := htrace.exists_changed pDe
  exact hchanged (h t ht)

/-- A directory with twelve full blocks on a partition where one block is free, number 12. -/
def oneLeft : DirSync where
  part := { Partition.recorded "sdb1" 0 4709 with
    sb := superBlock 0 4709
    blockBitmap := ⟨512, 0, fun k => if k = 1 then 0xef else 0xff⟩ }
  disk a := if a = 512 * 2 + 1 then 0xef else 0xff
  dirInode := ⟨1, 24 * 21 * 12, 1, 0,
    Vector.ofFn fun k => if k < 12 then 1220 + .ofNat k else 0, 0, 0⟩
  ioBuf _ := 0

theorem oneLeft_marks : oneLeft.part.blockBitmap.Marks 12 :=
  ⟨⟨by decide, rfl, by decide⟩, by decide⟩

theorem oneLeft_slotReached : SlotReached plainDrive oneLeft 12 := by
  have hfull : ∀ j < 12, directBlocks oneLeft.dirInode j ≠ 0 ∧
      plainDrive (directBlocks oneLeft.dirInode j) = some (1220 + j) ∧
      Ndebug.findUnknown (readSectors oneLeft.disk oneLeft.ioBuf (1220 + j) 1) 21 = .ok none := by
    decide +kernel
  refine ⟨by decide, Nat.le_refl 12, rfl, fun j hj => ?_⟩
  obtain ⟨hne, hdrive, hnone⟩ := hfull j hj
  exact ⟨hne, 1220 + j, hdrive, hnone⟩

theorem oneLeft_full (i : Nat) : (oneLeft.part.blockBitmap.put 12 true).bit i = true := by
  have hbyte : ∀ k < 8, k ≠ 4 → (0xef : UInt8).toBitVec.getLsbD k = true := by decide
  have hones : ∀ k < 8, (0xff : UInt8).toBitVec.getLsbD k = true := by decide
  rw [Bitmap.bit_put]
  split
  · rfl
  · show (if i / 8 = 1 then (0xef : UInt8) else 0xff).toBitVec.getLsbD (i % 8) = true
    split
    · exact hbyte _ (by omega) (by omega)
    · exact hones _ (by omega)

/-- The block is given back in memory, but its bit is set on the disk. -/
theorem sync_dir_entry_leaves_bit :
    ∃ t, Ndebug.syncDirEntry plainDrive fileEntry oneLeft = .ok (false, t) ∧
      t.part.blockBitmap = oneLeft.part.blockBitmap ∧ BitmapSector plainDrive oneLeft 2 ∧
      oneLeft.disk (512 * 2 + 1) = 0xef ∧ t.disk (512 * 2 + 1) = 0xff := by
  obtain ⟨r, part, halloc, hr, hmark⟩ :=
    Ndebug.blockBitmapAlloc_spec (oneLeft.part.take 12 .blockBitmap)
  have hset : ∀ j, ¬ (oneLeft.part.blockBitmap.put 12 true).FirstClear j := by
    intro j hj
    have hclear := hj.clear
    rw [oneLeft_full] at hclear
    cases hclear
  obtain rfl := hr.mpr fun j hj => absurd hj (hset j)
  obtain rfl := (hmark.resolve_left fun ⟨j, hj, _⟩ => hset j hj.1).2
  obtain ⟨b, hrun⟩ := oneLeft_slotReached.syncDirEntry_undone fileEntry (x := 2)
    oneLeft_marks (by decide) (by decide) halloc
  refine ⟨_, hrun, Ndebug.undone_linked (s := { oneLeft with ioBuf := b }) oneLeft_marks,
    ⟨0, by decide, by decide⟩, rfl, ?_⟩
  have hwrite : writeSectors oneLeft.disk (syncBytes oneLeft.part 12) 2 1 (512 * 2 + 1) =
      syncBytes oneLeft.part 12 1 := writeSectors_apply (by decide)
  exact hwrite.trans (by decide)

end OriginOS
