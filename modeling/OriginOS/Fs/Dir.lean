import Mathlib.Data.Set.Basic
import OriginOS.Fs.File

/-! `sync_dir_entry` of `fs/dir.c`, which adds an entry to a directory.

A directory has 140 slots for its blocks: `i_sectors[0]` to `i_sectors[11]`, and the 128 words of
the indirect block `i_sectors[12]`. `sync_dir_entry` does not read the indirect block. -/

namespace OriginOS

open Lib

/-- What `sync_dir_entry` reads and changes: `cur_part` and its disk, the inode of the directory and
the buffer. -/
structure DirSync where
  part : Partition
  disk : Disk
  dirInode : Inode
  ioBuf : Nat → UInt8

/-- `memcpy` of `size` bytes to `dst` in the buffer. -/
def copyTo (buf : Nat → UInt8) (dst : Nat) (src : Nat → UInt8) (size : Nat) :
    Nat → UInt8 := fun b =>
  if dst ≤ b ∧ b < dst + size then src (b - dst) else buf b

/-- The loop over the entries of a block: the first of type `FT_UNKNOWN`. -/
def findUnknown (ioBuf : Nat → UInt8) (dirEntriesPerSec : Nat) : Nat → Nat → Option Nat
  | 0, _ => none
  | n + 1, dirEntryIdx =>
    if dirEntryIdx < dirEntriesPerSec then
      if (DirEntry.ofBytes ioBuf (24 * dirEntryIdx)).fType = FileTypes.unknown.toWord then
        some dirEntryIdx
      else findUnknown ioBuf dirEntriesPerSec n (dirEntryIdx + 1)
    else none

/-- The words of the indirect block, as `all_blocks + 12` has them. -/
def indirectBytes (allBlocks : Nat → UInt32) : Nat → UInt8 :=
  ofWords fun k => (allBlocks (12 + k)).toNat

/-- `all_blocks` as `sync_dir_entry` fills it: the direct blocks, and zeros. -/
def directBlocks (dirInode : Inode) (k : Nat) : UInt32 :=
  if h : k < 12 then dirInode.iSectors[k] else 0

theorem Inode.indirect_lt : 12 < 13 := by omega

section SyncDirEntry

variable (pDe : Nat → UInt8)

/-- The slot `blockIdx` has no block: `sync_dir_entry` allocates one. `pDe` is the memory that
`p_de` points to. -/
def syncNewBlock (allBlocks : Nat → UInt32) (blockIdx : Nat) (s : DirSync) :
    Except Panic (Bool × DirSync) := do
  let dirEntrySize := s.part.sb.dirEntrySize
  let (blockLba, part) ← blockBitmapAlloc s.part
  if blockLba = 0xffffffff then pure (false, { s with part })
  else do
    let blockBitmapIdx := blockLba - part.sb.dataStartLba
    assert (blockBitmapIdx ≠ 0xffffffff)
      ⟨"./fs/dir.c", 112, "sync_dir_entry", "block_bitmap_idx != -1"⟩
    let disk ← bitmapSync part blockBitmapIdx .blockBitmap s.disk
    let finish (s : DirSync) (lba : UInt32) : Except Panic (Bool × DirSync) := do
      let ioBuf := copyTo (fill s.ioBuf 0 512 0) 0 pDe dirEntrySize.toNat
      let disk ← ideWrite s.disk lba.toNat ioBuf 1
      pure (true, { s with
        disk, ioBuf, dirInode := { s.dirInode with iSize := s.dirInode.iSize + dirEntrySize } })
    if blockIdx < 12 then
      finish { s with
        part, disk
        dirInode := { s.dirInode with iSectors :=
          s.dirInode.iSectors.setIfInBounds blockIdx blockLba } }
        blockLba
    else if blockIdx = 12 then do
      let dirInode := { s.dirInode with iSectors := s.dirInode.iSectors.setIfInBounds 12 blockLba }
      let (blockLba, part) ← blockBitmapAlloc part
      if blockLba = 0xffffffff then do
        let blockBitmapIdx := getElem dirInode.iSectors 12 Inode.indirect_lt - part.sb.dataStartLba
        let blockBitmap ← bitmapSet false part.blockBitmap blockBitmapIdx.toNat 0
        pure (false, { s with
          disk
          part := { part with blockBitmap }
          dirInode := { dirInode with iSectors := dirInode.iSectors.setIfInBounds 12 0 } })
      else do
        let blockBitmapIdx := blockLba - part.sb.dataStartLba
        assert (blockBitmapIdx ≠ 0xffffffff)
          ⟨"./fs/dir.c", 131, "sync_dir_entry", "block_bitmap_idx != -1"⟩
        let disk ← bitmapSync part blockBitmapIdx .blockBitmap disk
        let allBlocks := Function.update allBlocks 12 blockLba
        let disk ← ideWrite disk (getElem dirInode.iSectors 12 Inode.indirect_lt).toNat
          (indirectBytes allBlocks) 1
        finish { s with part, disk, dirInode } blockLba
    else do
      let allBlocks := Function.update allBlocks blockIdx blockLba
      let disk ← ideWrite disk (getElem s.dirInode.iSectors 12 Inode.indirect_lt).toNat
        (indirectBytes allBlocks) 1
      finish { s with part, disk } blockLba

/-- The loop over the slots, with `n` passes to go. -/
def syncLoop (allBlocks : Nat → UInt32) : Nat → Nat → DirSync → Except Panic (Bool × DirSync)
  | 0, _, s => pure (false, s)
  | n + 1, blockIdx, s =>
    if blockIdx < 140 then
      if allBlocks blockIdx = 0 then syncNewBlock pDe allBlocks blockIdx s
      else do
        let dirEntrySize := s.part.sb.dirEntrySize
        let ioBuf ← ideRead s.disk (allBlocks blockIdx).toNat s.ioBuf 1
        match findUnknown ioBuf (512 / dirEntrySize).toNat 512 0 with
        | some dirEntryIdx => do
          let ioBuf := copyTo ioBuf (24 * dirEntryIdx) pDe dirEntrySize.toNat
          let disk ← ideWrite s.disk (allBlocks blockIdx).toNat ioBuf 1
          pure (true, { s with
            disk, ioBuf, dirInode := { s.dirInode with iSize := s.dirInode.iSize + dirEntrySize } })
        | none => syncLoop allBlocks n (blockIdx + 1) { s with ioBuf }
    else pure (false, s)

def syncDirEntry (s : DirSync) : Except Panic (Bool × DirSync) := do
  assert (s.dirInode.iSize % s.part.sb.dirEntrySize = 0)
    ⟨"./fs/dir.c", 88, "sync_dir_entry", "dir_size % dir_entry_size == 0"⟩
  syncLoop pDe (directBlocks s.dirInode) 140 0 s

end SyncDirEntry

/-! ### The entries and the blocks of a directory -/

def blockEntries (disk : Disk) (lba : Nat) : Set DirEntry :=
  { e | e.fType ≠ FileTypes.unknown.toWord ∧
    ∃ m < 21, DirEntry.ofBytes disk (512 * lba + 24 * m) = e }

namespace Inode

def slot (dirInode : Inode) (disk : Disk) (k : Nat) : UInt32 :=
  if h : k < 12 then dirInode.iSectors[k]
  else if dirInode.iSectors[12] = 0 then 0
  else wordAt disk (512 * dirInode.iSectors[12].toNat + 4 * (k - 12))

def entries (dirInode : Inode) (disk : Disk) : Set DirEntry :=
  { e | ∃ k < 140, dirInode.slot disk k ≠ 0 ∧ e ∈ blockEntries disk (dirInode.slot disk k).toNat }

/-- A block of the directory, the indirect block included. -/
def Reaches (dirInode : Inode) (disk : Disk) (b : UInt32) : Prop :=
  b ≠ 0 ∧ (b = dirInode.iSectors[12] ∨ ∃ k < 140, dirInode.slot disk k = b)

end Inode

/-- The block lies in the data area, and its bit in the block bitmap has the value. -/
def Partition.BlockBit (part : Partition) (b : UInt32) (value : Bool) : Prop :=
  ∃ i < 8 * part.blockBitmap.btmpBytesLen,
    b.toNat = part.sb.dataStartLba.toNat + i ∧ part.blockBitmap.bit i = value

/-- A mounted partition: the data area lies behind the block bitmap. -/
structure DirSane (part : Partition) : Prop where
  fit : BitmapsFit part
  entrySize : part.sb.dirEntrySize = 24
  dataStart : part.sb.blockBitmapLba.toNat + part.sb.blockBitmapSects.toNat ≤
    part.sb.dataStartLba.toNat

theorem DirSane.mounted {part : Partition} {pad : Nat → UInt8} {disk : Disk}
    {blockBits inodeBits : HeapBlock} (h : Accepted part.startLba part.secCnt) :
    DirSane (mounted part blockBits inodeBits (formatted part.startLba part.secCnt pad disk)) := by
  refine ⟨(init_mounted h).1, rfl, ?_⟩
  obtain ⟨hblock, -, -, hroot⟩ := h.lbas
  simp only [OriginOS.mounted, superBlock_blockBitmapLba, superBlock_blockBitmapSects,
    superBlock_dataStartLba]
  omega

/-- A well-formed directory: its blocks are a prefix of the slots, they are different blocks of the
data area, and they are marked in the block bitmap. -/
structure WellFormedDir (s : DirSync) : Prop where
  sane : DirSane s.part
  used : ∀ j k, j ≤ k → k < 140 → s.dirInode.slot s.disk j = 0 → s.dirInode.slot s.disk k = 0
  distinct : ∀ j < 140, ∀ k < 140, s.dirInode.slot s.disk j = s.dirInode.slot s.disk k →
    s.dirInode.slot s.disk j ≠ 0 → j = k
  indirect : ∀ k < 140, s.dirInode.slot s.disk k ≠ 0 →
    s.dirInode.slot s.disk k ≠ s.dirInode.iSectors[12]
  allocated : ∀ b, s.dirInode.Reaches s.disk b → s.part.BlockBit b true

structure EntryAdded (s t : DirSync) (e : DirEntry) : Prop where
  entries : t.dirInode.entries t.disk =
    s.dirInode.entries s.disk ∪ { e' | e' = e ∧ e.fType ≠ FileTypes.unknown.toWord }
  size : t.dirInode.iSize = s.dirInode.iSize + s.part.sb.dirEntrySize
  kept : ∀ b, s.dirInode.Reaches s.disk b → t.dirInode.Reaches t.disk b
  fresh : ∀ b, t.dirInode.Reaches t.disk b → ¬ s.dirInode.Reaches s.disk b → s.part.BlockBit b false

def BlockFull (disk : Disk) (lba : Nat) : Prop :=
  ∀ m < 21, (DirEntry.ofBytes disk (512 * lba + 24 * m)).fType ≠ FileTypes.unknown.toWord

/-- The twelve direct blocks are in use and full. -/
def DirectFull (s : DirSync) : Prop :=
  ∀ k, (h : k < 12) → s.dirInode.iSectors[k] ≠ 0 ∧ BlockFull s.disk s.dirInode.iSectors[k].toNat

/-! ### Blocks of entries -/

section Blocks

variable {disk disk' : Disk} {lba : Nat} {pDe : Nat → UInt8}

theorem dirEntry_congr (h : SameSector disk disk' lba) {m : Nat} (hm : m < 21) :
    DirEntry.ofBytes disk' (512 * lba + 24 * m) = DirEntry.ofBytes disk (512 * lba + 24 * m) := by
  refine DirEntry.ofBytes_congr fun k hk => ?_
  rw [Nat.add_assoc]
  exact h _ (by omega)

theorem blockEntries_congr (h : SameSector disk disk' lba) :
    blockEntries disk' lba = blockEntries disk lba := by
  ext e
  refine and_congr_right fun _ => exists_congr fun m => and_congr_right fun hm => ?_
  rw [dirEntry_congr h hm]

theorem ofBytes_copyTo {buf : Nat → UInt8} {m : Nat} :
    DirEntry.ofBytes (copyTo buf (24 * m) pDe 24) (24 * m) = DirEntry.ofBytes pDe 0 := by
  refine DirEntry.ofBytes_congr fun k hk => ?_
  rw [copyTo, if_pos (by omega)]
  congr 1
  omega

theorem ofBytes_copyTo_of_ne {buf : Nat → UInt8} {m j : Nat} (hne : j ≠ m) :
    DirEntry.ofBytes (copyTo buf (24 * m) pDe 24) (24 * j) = DirEntry.ofBytes buf (24 * j) :=
  DirEntry.ofBytes_congr fun k hk => if_neg (by omega)

theorem ofBytes_readSectors {buf : Nat → UInt8} {m : Nat} (hm : m < 21) :
    DirEntry.ofBytes (readSectors disk buf lba 1) (24 * m) =
      DirEntry.ofBytes disk (512 * lba + 24 * m) := by
  refine DirEntry.ofBytes_congr fun k hk => ?_
  rw [readSectors_apply (by omega), Nat.add_assoc]

theorem ofBytes_writeSectors {buf : Nat → UInt8} {m : Nat} (hm : m < 21) :
    DirEntry.ofBytes (writeSectors disk buf lba 1) (512 * lba + 24 * m) =
      DirEntry.ofBytes buf (24 * m) := by
  refine DirEntry.ofBytes_congr fun k hk => ?_
  rw [Nat.add_assoc]
  exact writeSectors_apply (by omega)

theorem blockEntries_copyTo {m : Nat} {buf : Nat → UInt8} (hm : m < 21)
    (hbuf : ∀ j < 21, DirEntry.ofBytes buf (24 * j) = DirEntry.ofBytes disk (512 * lba + 24 * j))
    (hfree : (DirEntry.ofBytes disk (512 * lba + 24 * m)).fType = FileTypes.unknown.toWord) :
    blockEntries (writeSectors disk' (copyTo buf (24 * m) pDe 24) lba 1) lba =
      blockEntries disk lba ∪ { e | e = DirEntry.ofBytes pDe 0 ∧
        (DirEntry.ofBytes pDe 0).fType ≠ FileTypes.unknown.toWord } := by
  ext e
  constructor
  · rintro ⟨htype, j, hj, rfl⟩
    rw [ofBytes_writeSectors hj] at htype ⊢
    by_cases hjm : j = m
    · subst hjm
      rw [ofBytes_copyTo] at htype ⊢
      exact .inr ⟨rfl, htype⟩
    · rw [ofBytes_copyTo_of_ne hjm, hbuf j hj] at htype ⊢
      exact .inl ⟨htype, j, hj, rfl⟩
  · rintro (⟨htype, j, hj, rfl⟩ | ⟨rfl, htype⟩)
    · have hjm : j ≠ m := by
        rintro rfl
        exact htype hfree
      refine ⟨htype, j, hj, ?_⟩
      rw [ofBytes_writeSectors hj, ofBytes_copyTo_of_ne hjm, hbuf j hj]
    · refine ⟨htype, m, hm, ?_⟩
      rw [ofBytes_writeSectors hm, ofBytes_copyTo]

theorem blockEntries_new {buf : Nat → UInt8} :
    blockEntries (writeSectors disk (copyTo (fill buf 0 512 0) 0 pDe 24) lba 1) lba =
      { e | e = DirEntry.ofBytes pDe 0 ∧
        (DirEntry.ofBytes pDe 0).fType ≠ FileTypes.unknown.toWord } := by
  have hcopy := @blockEntries_copyTo (fun _ => 0) disk lba pDe 0 (fill buf 0 512 0) (by decide)
    (fun j hj => DirEntry.ofBytes_congr fun k hk => fill_clear (by omega)) rfl
  have hempty : blockEntries (fun _ => 0) lba = ∅ :=
    Set.eq_empty_of_forall_notMem fun e ⟨htype, m, hm, he⟩ => htype (he ▸ rfl)
  rw [hempty, Set.empty_union] at hcopy
  exact hcopy

end Blocks

/-! ### The loops -/

theorem findUnknown_spec {buf : Nat → UInt8} {n i : Nat} (hn : 21 ≤ i + n) :
    match findUnknown buf 21 n i with
    | some m => i ≤ m ∧ m < 21 ∧
        (DirEntry.ofBytes buf (24 * m)).fType = FileTypes.unknown.toWord
    | none => ∀ m, i ≤ m → m < 21 →
        (DirEntry.ofBytes buf (24 * m)).fType ≠ FileTypes.unknown.toWord := by
  induction n generalizing i with
  | zero => exact fun m hm hm' => by omega
  | succ n ih =>
    rw [findUnknown]
    by_cases hlt : i < 21
    · rw [if_pos hlt]
      by_cases hfree : (DirEntry.ofBytes buf (24 * i)).fType = FileTypes.unknown.toWord
      · rw [if_pos hfree]
        exact ⟨le_refl i, hlt, hfree⟩
      · rw [if_neg hfree]
        have hrest := @ih (i + 1) (by omega)
        split at hrest
        · obtain ⟨hle, hrest⟩ := hrest
          exact ⟨by omega, hrest⟩
        · intro m hm hm'
          by_cases heq : m = i
          · exact heq ▸ hfree
          · exact hrest m (by omega) hm'
    · rw [if_neg hlt]
      exact fun m hm hm' => by omega

structure Filled (pDe : Nat → UInt8) (b : UInt32) (s t : DirSync) : Prop where
  part : t.part = s.part
  dirInode : t.dirInode = { s.dirInode with iSize := s.dirInode.iSize + 24 }
  disk : ∃ m < 21, ∃ buf : Nat → UInt8,
    (∀ j < 21, DirEntry.ofBytes buf (24 * j) =
      DirEntry.ofBytes s.disk (512 * b.toNat + 24 * j)) ∧
    (DirEntry.ofBytes s.disk (512 * b.toNat + 24 * m)).fType = FileTypes.unknown.toWord ∧
    t.disk = writeSectors s.disk (copyTo buf (24 * m) pDe 24) b.toNat 1

/-- The loop over the slots goes past full blocks, and fills an entry of the first block that is not
full, or takes a new block for the first slot that has none. -/
theorem syncLoop_eq_true {pDe : Nat → UInt8} {allBlocks : Nat → UInt32} {n i : Nat} {s t : DirSync}
    (hsize : s.part.sb.dirEntrySize = 24)
    (h : syncLoop pDe allBlocks n i s = .ok (true, t)) :
    ∃ k, i ≤ k ∧ k < 140 ∧
      (∀ j, i ≤ j → j < k → allBlocks j ≠ 0 ∧ BlockFull s.disk (allBlocks j).toNat) ∧
      (allBlocks k ≠ 0 ∧ ¬ BlockFull s.disk (allBlocks k).toNat ∧ Filled pDe (allBlocks k) s t ∨
        allBlocks k = 0 ∧ ∃ ioBuf, syncNewBlock pDe allBlocks k { s with ioBuf } =
        .ok (true, t)) := by
  induction n generalizing i s with
  | zero => exact absurd (congrArg Prod.fst (Except.ok.inj h)) Bool.false_ne_true
  | succ n ih =>
    rw [syncLoop] at h
    by_cases hi : i < 140
    · rw [if_pos hi] at h
      by_cases hzero : allBlocks i = 0
      · rw [if_pos hzero] at h
        exact ⟨i, le_refl i, hi, fun j hj hj' => by omega, .inr ⟨hzero, s.ioBuf, h⟩⟩
      · rw [if_neg hzero] at h
        obtain ⟨ioBuf, hread, h⟩ := bind_eq_ok.mp h
        obtain ⟨-, rfl⟩ := ideRead_eq_ok.mp hread
        have hspec := @findUnknown_spec (readSectors s.disk s.ioBuf (allBlocks i).toNat 1) 512 0
          (by decide)
        rw [hsize, show (512 / 24 : UInt32).toNat = 21 from rfl] at h
        cases hfind : findUnknown (readSectors s.disk s.ioBuf (allBlocks i).toNat 1) 21 512 0 with
        | some m =>
          rw [hfind] at h hspec
          obtain ⟨-, hm, hfree⟩ := hspec
          obtain ⟨disk, hwrite, h⟩ := bind_eq_ok.mp h
          obtain ⟨-, rfl⟩ := ideWrite_eq_ok.mp hwrite
          obtain ⟨-, rfl⟩ := Prod.mk.inj (Except.ok.inj h)
          rw [ofBytes_readSectors hm] at hfree
          refine ⟨i, le_refl i, hi, fun j hj hj' => by omega, .inl ⟨hzero, fun hfull => ?_, ?_⟩⟩
          · exact hfull m hm hfree
          · exact ⟨rfl, rfl, m, hm, _, fun j hj => ofBytes_readSectors hj, hfree, rfl⟩
        | none =>
          rw [hfind] at h hspec
          have hfull : BlockFull s.disk (allBlocks i).toNat := by
            intro m hm
            rw [← @ofBytes_readSectors s.disk _ s.ioBuf m hm]
            exact hspec m (Nat.zero_le m) hm
          obtain ⟨k, hle, hk, hbefore, hcase⟩ := ih
            (s := { s with ioBuf := readSectors s.disk s.ioBuf (allBlocks i).toNat 1 }) hsize h
          refine ⟨k, by omega, hk, fun j hj hj' => ?_, ?_⟩
          · by_cases heq : j = i
            · exact heq ▸ ⟨hzero, hfull⟩
            · exact hbefore j (by omega) hj'
          · rcases hcase with ⟨hne, hnot, hpart, hinode, hdisk⟩ | ⟨hz, hnew⟩
            · exact .inl ⟨hne, hnot, hpart, hinode, hdisk⟩
            · exact .inr ⟨hz, hnew⟩
    · rw [if_neg hi] at h
      exact absurd (congrArg Prod.fst (Except.ok.inj h)) Bool.false_ne_true

/-! ### New blocks -/

section New

variable {pDe : Nat → UInt8} {allBlocks : Nat → UInt32} {s t : DirSync} {part : Partition}

def Partition.block (part : Partition) (i : Nat) : UInt32 := part.sb.dataStartLba + .ofNat i

theorem DirSane.take (h : DirSane part) (i : Nat) : DirSane (part.take i .blockBitmap) :=
  ⟨h.fit.take i .blockBitmap, h.entrySize, h.dataStart⟩

theorem DirSane.sameSector_bitmapSync (h : DirSane part) {i : Nat} {disk disk' : Disk}
    (hi : part.blockBitmap.FirstClear i)
    (hsync : bitmapSync (part.take i .blockBitmap) (.ofNat i) .blockBitmap disk = .ok disk') :
    ∀ x, part.sb.dataStartLba.toNat ≤ x → SameSector disk disk' x := by
  intro x hx
  obtain ⟨-, rfl⟩ := bitmapSync_eq_ok.mp hsync
  obtain ⟨-, hlba⟩ := h.fit.toNat_ofNat .blockBitmap hi
  have hlen : part.blockBitmap.btmpBytesLen = 512 * part.sb.blockBitmapSects.toNat :=
    h.fit.len .blockBitmap
  have hlt := hi.lt
  have hdata := h.dataStart
  rw [Partition.bitmapLba_take, hlba]
  have hbase : part.bitmapLba .blockBitmap = part.sb.blockBitmapLba := rfl
  rw [hbase]
  exact sameSector_writeSectors (by omega)

def NewDirect (pDe : Nat → UInt8) (k : Nat) (s t : DirSync) : Prop :=
  ∃ i, s.part.blockBitmap.FirstClear i ∧
    t.dirInode = { s.dirInode with
      iSectors := s.dirInode.iSectors.setIfInBounds k (s.part.block i)
      iSize := s.dirInode.iSize + 24 } ∧
    ∃ (disk : Disk) (buf : Nat → UInt8),
      (∀ x, s.part.sb.dataStartLba.toNat ≤ x → SameSector s.disk disk x) ∧
      t.disk = writeSectors disk (copyTo (fill buf 0 512 0) 0 pDe 24) (s.part.block i).toNat 1

/-- A new indirect block, and a block in its first slot. -/
def NewIndirect (pDe : Nat → UInt8) (allBlocks : Nat → UInt32) (s t : DirSync) : Prop :=
  ∃ i j, s.part.blockBitmap.FirstClear i ∧ (s.part.blockBitmap.put i true).FirstClear j ∧
    t.dirInode = { s.dirInode with
      iSectors := s.dirInode.iSectors.setIfInBounds 12 (s.part.block i)
      iSize := s.dirInode.iSize + 24 } ∧
    ∃ (disk : Disk) (buf : Nat → UInt8),
      (∀ x, s.part.sb.dataStartLba.toNat ≤ x → SameSector s.disk disk x) ∧
      t.disk = writeSectors (writeSectors disk
          (indirectBytes (Function.update allBlocks 12 (s.part.block j))) (s.part.block i).toNat 1)
        (copyTo (fill buf 0 512 0) 0 pDe 24) (s.part.block j).toNat 1

theorem syncNewBlock_direct (h : DirSane s.part) {k : Nat} (hk : k < 12) {ioBuf : Nat → UInt8}
    (hnew : syncNewBlock pDe allBlocks k { s with ioBuf } = .ok (true, t)) :
    NewDirect pDe k s t := by
  obtain ⟨⟨blockLba, part⟩, halloc, hnew⟩ := bind_eq_ok.mp hnew
  obtain ⟨i, hi, rfl, rfl⟩ := blockBitmapAlloc_eq_ok.mp halloc
  obtain ⟨-, hne, hsub⟩ := h.fit.dataStartLba_add hi
  dsimp only at hnew
  rw [if_neg hne, Partition.sb_take, hsub] at hnew
  obtain ⟨-, -, hnew⟩ := bind_eq_ok.mp hnew
  obtain ⟨disk, hsync, hnew⟩ := bind_eq_ok.mp hnew
  rw [if_pos hk] at hnew
  obtain ⟨disk', hwrite, hnew⟩ := bind_eq_ok.mp hnew
  obtain ⟨-, rfl⟩ := ideWrite_eq_ok.mp hwrite
  obtain ⟨-, rfl⟩ := Prod.mk.inj (Except.ok.inj hnew)
  have hsize := h.entrySize
  refine ⟨i, hi, ?_, disk, ioBuf, h.sameSector_bitmapSync hi hsync, ?_⟩
  · rw [hsize]
    rfl
  · rw [hsize]
    rfl

theorem syncNewBlock_indirect (h : DirSane s.part) {ioBuf : Nat → UInt8}
    (hnew : syncNewBlock pDe allBlocks 12 { s with ioBuf } = .ok (true, t)) :
    NewIndirect pDe allBlocks s t := by
  obtain ⟨⟨blockLba, part⟩, halloc, hnew⟩ := bind_eq_ok.mp hnew
  obtain ⟨i, hi, rfl, rfl⟩ := blockBitmapAlloc_eq_ok.mp halloc
  obtain ⟨-, hne, hsub⟩ := h.fit.dataStartLba_add hi
  dsimp only at hnew
  rw [if_neg hne, Partition.sb_take, hsub] at hnew
  obtain ⟨-, -, hnew⟩ := bind_eq_ok.mp hnew
  obtain ⟨disk₁, hsync₁, hnew⟩ := bind_eq_ok.mp hnew
  rw [if_neg (by decide), if_pos rfl] at hnew
  obtain ⟨⟨blockLba, part⟩, halloc, hnew⟩ := bind_eq_ok.mp hnew
  obtain ⟨j, hj, rfl, rfl⟩ := blockBitmapAlloc_eq_ok.mp halloc
  have h' := h.take i
  obtain ⟨-, hne', hsub'⟩ := h'.fit.dataStartLba_add hj
  simp only [Partition.sb_take] at hne' hsub' hnew
  rw [if_neg hne', hsub'] at hnew
  obtain ⟨-, -, hnew⟩ := bind_eq_ok.mp hnew
  obtain ⟨disk₂, hsync₂, hnew⟩ := bind_eq_ok.mp hnew
  obtain ⟨disk₃, hwrite₃, hnew⟩ := bind_eq_ok.mp hnew
  obtain ⟨-, rfl⟩ := ideWrite_eq_ok.mp hwrite₃
  obtain ⟨disk₄, hwrite₄, hnew⟩ := bind_eq_ok.mp hnew
  obtain ⟨-, rfl⟩ := ideWrite_eq_ok.mp hwrite₄
  obtain ⟨-, rfl⟩ := Prod.mk.inj (Except.ok.inj hnew)
  have hsize := h.entrySize
  refine ⟨i, j, hi, hj, ?_, disk₂, ioBuf, fun x hx => ?_, ?_⟩
  · rw [hsize]
    rfl
  · exact (h.sameSector_bitmapSync hi hsync₁ x hx).trans (h'.sameSector_bitmapSync hj hsync₂ x hx)
  · rw [hsize]
    simp only [Vector.getElem_setIfInBounds, if_true]
    rfl

end New

/-! ### What a new entry changes -/

def newEntries (e : DirEntry) : Set DirEntry :=
  { e' | e' = e ∧ e.fType ≠ FileTypes.unknown.toWord }

section Slots

variable {s t : DirSync} {e : DirEntry}

theorem Inode.slot_of_lt {dirInode : Inode} {disk : Disk} {k : Nat} (h : k < 12) :
    dirInode.slot disk k = dirInode.iSectors[k] := dif_pos h

theorem Inode.slot_of_ge {dirInode : Inode} {disk : Disk} {k : Nat} (h : 12 ≤ k) :
    dirInode.slot disk k = if dirInode.iSectors[12] = 0 then 0
      else wordAt disk (512 * dirInode.iSectors[12].toNat + 4 * (k - 12)) := dif_neg (by omega)

theorem slot_congr {k : Nat} (hge : 12 ≤ k) (hlt : k < 140)
    (hind : t.dirInode.iSectors[12] = s.dirInode.iSectors[12])
    (hsame : s.dirInode.iSectors[12] ≠ 0 →
      SameSector s.disk t.disk s.dirInode.iSectors[12].toNat) :
    t.dirInode.slot t.disk k = s.dirInode.slot s.disk k := by
  rw [Inode.slot_of_ge hge, Inode.slot_of_ge hge, hind]
  by_cases hzero : s.dirInode.iSectors[12] = 0
  · rw [if_pos hzero, if_pos hzero]
  · rw [if_neg hzero, if_neg hzero]
    refine wordAt_congr_shift fun j hj => ?_
    rw [Nat.add_assoc]
    exact hsame hzero _ (by omega)

/-- When one slot gets the entry and the blocks of the others stay the same, the entries are the old
ones and the new one. -/
theorem entries_of_slot {k₀ : Nat} (hk₀ : k₀ < 140)
    (hslot : ∀ k < 140, k ≠ k₀ → t.dirInode.slot t.disk k = s.dirInode.slot s.disk k)
    (hsame : ∀ k < 140, k ≠ k₀ → s.dirInode.slot s.disk k ≠ 0 →
      SameSector s.disk t.disk (s.dirInode.slot s.disk k).toNat)
    (hnew : t.dirInode.slot t.disk k₀ ≠ 0)
    (hblock : blockEntries t.disk (t.dirInode.slot t.disk k₀).toNat =
      { e' | s.dirInode.slot s.disk k₀ ≠ 0 ∧
        e' ∈ blockEntries s.disk (s.dirInode.slot s.disk k₀).toNat } ∪ newEntries e) :
    t.dirInode.entries t.disk = s.dirInode.entries s.disk ∪ newEntries e := by
  ext e'
  constructor
  · rintro ⟨k, hk, hne, hmem⟩
    by_cases hkk : k = k₀
    · subst hkk
      rw [hblock] at hmem
      rcases hmem with ⟨hne', hold⟩ | hadd
      · exact .inl ⟨k, hk, hne', hold⟩
      · exact .inr hadd
    · rw [hslot k hk hkk] at hne hmem
      rw [blockEntries_congr (hsame k hk hkk hne)] at hmem
      exact .inl ⟨k, hk, hne, hmem⟩
  · rintro (⟨k, hk, hne, hmem⟩ | hadd)
    · by_cases hkk : k = k₀
      · subst hkk
        exact ⟨k, hk, hnew, hblock ▸ .inl ⟨hne, hmem⟩⟩
      · refine ⟨k, hk, ?_, ?_⟩
        · rw [hslot k hk hkk]
          exact hne
        · rw [hslot k hk hkk, blockEntries_congr (hsame k hk hkk hne)]
          exact hmem
    · exact ⟨k₀, hk₀, hnew, hblock ▸ .inr hadd⟩

end Slots

section Cases

variable {pDe : Nat → UInt8} {s t : DirSync}

theorem Inode.reaches_slot {dirInode : Inode} {disk : Disk} {k : Nat} (hk : k < 140)
    (hne : dirInode.slot disk k ≠ 0) : dirInode.Reaches disk (dirInode.slot disk k) :=
  ⟨hne, .inr ⟨k, hk, rfl⟩⟩

theorem Inode.reaches_indirect {dirInode : Inode} {disk : Disk} (hne : dirInode.iSectors[12] ≠ 0) :
    dirInode.Reaches disk dirInode.iSectors[12] := ⟨hne, .inl rfl⟩

theorem WellFormedDir.toNat_ne (h : WellFormedDir s) {b : UInt32} {i : Nat}
    (hb : s.dirInode.Reaches s.disk b) (hclear : s.part.blockBitmap.bit i = false) :
    s.part.sb.dataStartLba.toNat ≤ b.toNat ∧ b.toNat ≠ s.part.sb.dataStartLba.toNat + i := by
  obtain ⟨j, -, hj, hset⟩ := h.allocated b hb
  refine ⟨by omega, fun heq => ?_⟩
  obtain rfl : i = j := by omega
  rw [hclear] at hset
  exact Bool.false_ne_true hset

theorem DirSane.toNat_block {part : Partition} (h : DirSane part) {i : Nat}
    (hi : part.blockBitmap.FirstClear i) :
    (part.block i).toNat = part.sb.dataStartLba.toNat + i ∧ part.block i ≠ 0 := by
  have hval := (h.fit.dataStartLba_add hi).1
  refine ⟨hval, fun hzero => ?_⟩
  have hlen : part.blockBitmap.btmpBytesLen = 512 * part.sb.blockBitmapSects.toNat :=
    h.fit.len .blockBitmap
  have hdata := h.dataStart
  have hlt := hi.lt
  have hnat := congrArg UInt32.toNat hzero
  rw [UInt32.toNat_zero] at hnat
  rw [Partition.block] at hnat
  omega

theorem WellFormedDir.added_of_filled (h : WellFormedDir s) {k : Nat} (hk : k < 12)
    (hne : s.dirInode.iSectors[k] ≠ 0) (hfill : Filled pDe s.dirInode.iSectors[k] s t) :
    EntryAdded s t (DirEntry.ofBytes pDe 0) := by
  obtain ⟨-, hinode, m, hm, buf, hbuf, hfree, hdisk⟩ := hfill
  have hk140 : k < 140 := by omega
  have hsl : s.dirInode.slot s.disk k = s.dirInode.iSectors[k] := Inode.slot_of_lt hk
  have hsec : t.dirInode.iSectors = s.dirInode.iSectors := by rw [hinode]
  have hsame : ∀ b, s.dirInode.Reaches s.disk b → b ≠ s.dirInode.iSectors[k] →
      SameSector s.disk t.disk b.toNat := by
    intro b hb hbne
    rw [hdisk]
    have : b.toNat ≠ s.dirInode.iSectors[k].toNat := fun heq => hbne (UInt32.toNat_inj.mp heq)
    exact sameSector_writeSectors (by omega)
  have hslot : ∀ j < 140, t.dirInode.slot t.disk j = s.dirInode.slot s.disk j := by
    intro j hj
    by_cases hj12 : j < 12
    · rw [Inode.slot_of_lt hj12, Inode.slot_of_lt hj12, hsec]
    · refine slot_congr (by omega) hj (by rw [hsec]) fun hind => ?_
      refine hsame _ (Inode.reaches_indirect hind) fun heq => ?_
      exact h.indirect k hk140 (hsl ▸ hne) (hsl.trans heq.symm)
  have hreach : ∀ b, t.dirInode.Reaches t.disk b ↔ s.dirInode.Reaches s.disk b := by
    intro b
    refine and_congr_right fun _ => or_congr (by rw [hsec]) ?_
    exact exists_congr fun j => and_congr_right fun hj => by rw [hslot j hj]
  constructor
  · refine entries_of_slot hk140 (fun j hj _ => hslot j hj) (fun j hj hjk hjne => ?_) ?_ ?_
    · refine hsame _ (Inode.reaches_slot hj hjne) fun heq => hjk ?_
      exact h.distinct j hj k hk140 (heq.trans hsl.symm) hjne
    · rw [hslot k hk140, hsl]
      exact hne
    · rw [hslot k hk140, hsl, hdisk, blockEntries_copyTo hm hbuf hfree]
      simp [hne, newEntries]
  · rw [hinode, h.sane.entrySize]
  · exact fun b hb => (hreach b).mpr hb
  · exact fun b hb hnot => absurd ((hreach b).mp hb) hnot

theorem WellFormedDir.added_of_direct (h : WellFormedDir s) {k : Nat} (hk : k < 12)
    (hzero : s.dirInode.iSectors[k] = 0) (hnew : NewDirect pDe k s t) :
    EntryAdded s t (DirEntry.ofBytes pDe 0) := by
  obtain ⟨i, hi, hinode, disk, buf, hdata, hdisk⟩ := hnew
  obtain ⟨hval, hblock⟩ := h.sane.toNat_block hi
  have hk140 : k < 140 := by omega
  have hsl : s.dirInode.slot s.disk k = 0 := (Inode.slot_of_lt hk).trans hzero
  have hsec : ∀ j, (hj : j < 13) → t.dirInode.iSectors[j] =
      if k = j then s.part.block i else s.dirInode.iSectors[j] := by
    intro j hj
    simp only [hinode]
    exact Vector.getElem_setIfInBounds hj
  have hind : t.dirInode.iSectors[12] = s.dirInode.iSectors[12] := by
    rw [hsec 12 (by decide), if_neg (by omega)]
  have hsame : ∀ b, s.dirInode.Reaches s.disk b → SameSector s.disk t.disk b.toNat := by
    intro b hb
    obtain ⟨hle, hne⟩ := h.toNat_ne hb hi.clear
    rw [hdisk]
    exact (hdata _ hle).trans (sameSector_writeSectors (by omega))
  have hslot : ∀ j < 140, j ≠ k → t.dirInode.slot t.disk j = s.dirInode.slot s.disk j := by
    intro j hj hjk
    by_cases hj12 : j < 12
    · rw [Inode.slot_of_lt hj12, Inode.slot_of_lt hj12, hsec j (by omega), if_neg (Ne.symm hjk)]
    · exact slot_congr (by omega) hj hind fun hne => hsame _ (Inode.reaches_indirect hne)
  have hslotk : t.dirInode.slot t.disk k = s.part.block i := by
    rw [Inode.slot_of_lt hk, hsec k (by omega), if_pos rfl]
  constructor
  · refine entries_of_slot hk140 hslot (fun j hj hjk hjne => ?_) ?_ ?_
    · exact hsame _ (Inode.reaches_slot hj hjne)
    · rw [hslotk]
      exact hblock
    · rw [hslotk, hdisk, blockEntries_new, hsl]
      simp [newEntries]
  · rw [hinode, h.sane.entrySize]
  · rintro b ⟨hne, hb | ⟨j, hj, rfl⟩⟩
    · exact ⟨hne, .inl (hb.trans hind.symm)⟩
    · refine ⟨hne, .inr ⟨j, hj, hslot j hj ?_⟩⟩
      rintro rfl
      exact hne hsl
  · rintro b ⟨hne, hb | ⟨j, hj, rfl⟩⟩ hnot
    · exact absurd ⟨hne, .inl (hb.trans hind)⟩ hnot
    · by_cases hjk : j = k
      · subst hjk
        rw [hslotk]
        exact ⟨i, hi.lt, hval, hi.clear⟩
      · rw [hslot j hj hjk] at hne hnot
        exact absurd (Inode.reaches_slot hj hne) hnot

/-- An indirect block `i` with one block `j` has been made: the slots are the direct blocks, the new
block, and no more. -/
structure IndirectMade (pDe : Nat → UInt8) (i j : Nat) (s t : DirSync) : Prop where
  free : s.part.BlockBit (s.part.block i) false ∧ s.part.BlockBit (s.part.block j) false
  nonzero : s.part.block i ≠ 0 ∧ s.part.block j ≠ 0
  size : t.dirInode.iSize = s.dirInode.iSize + 24
  indirect : t.dirInode.iSectors[12] = s.part.block i
  direct : ∀ k < 12, t.dirInode.slot t.disk k = s.dirInode.slot s.disk k
  first : t.dirInode.slot t.disk 12 = s.part.block j
  rest : ∀ k, 12 < k → k < 140 → t.dirInode.slot t.disk k = 0
  same : ∀ b, s.dirInode.Reaches s.disk b → SameSector s.disk t.disk b.toNat
  entries : blockEntries t.disk (s.part.block j).toNat = newEntries (DirEntry.ofBytes pDe 0)

theorem WellFormedDir.indirectMade (h : WellFormedDir s)
    (hnew : NewIndirect pDe (directBlocks s.dirInode) s t) : ∃ i j, IndirectMade pDe i j s t := by
  obtain ⟨i, j, hi, hj, hinode, disk, buf, hdata, hdisk⟩ := hnew
  have hji : j ≠ i := by
    rintro rfl
    have hclear := hj.clear
    rw [Bitmap.bit_put, if_pos rfl] at hclear
    exact Bool.noConfusion hclear
  have hclear : s.part.blockBitmap.bit j = false := by
    have hclear := hj.clear
    rwa [Bitmap.bit_put, if_neg hji] at hclear
  obtain ⟨hvali, hnei⟩ := h.sane.toNat_block hi
  obtain ⟨hvalj, hnej⟩ := (h.sane.take i).toNat_block hj
  have hvalj : (s.part.block j).toNat = s.part.sb.dataStartLba.toNat + j := hvalj
  have hnej : s.part.block j ≠ 0 := hnej
  have hind : t.dirInode.iSectors[12] = s.part.block i := by
    simp only [hinode]
    rw [Vector.getElem_setIfInBounds, if_pos rfl]
  -- the words of the new indirect block
  have hword : ∀ k, 12 ≤ k → k < 140 → t.dirInode.slot t.disk k =
      Function.update (directBlocks s.dirInode) 12 (s.part.block j) k := by
    intro k hge hlt
    have hbytes : wordAt t.disk (512 * (s.part.block i).toNat + 4 * (k - 12)) = wordAt
        (indirectBytes (Function.update (directBlocks s.dirInode) 12 (s.part.block j)))
        (4 * (k - 12)) := by
      refine wordAt_congr_shift fun b hb => ?_
      rw [hdisk, writeSectors_of_not (by omega), Nat.add_assoc, writeSectors_apply (by omega)]
    rw [Inode.slot_of_ge hge, hind, if_neg hnei, hbytes, wordAt, indirectBytes,
      load32_ofWords (UInt32.toNat_lt _), UInt32.ofNat_toNat, show 12 + (k - 12) = k by omega]
  refine ⟨i, j, ⟨⟨i, hi.lt, hvali, hi.clear⟩, ⟨j, hj.lt, hvalj, hclear⟩⟩, ⟨hnei, hnej⟩, ?_, hind,
    fun k hk => ?_, ?_, fun k hgt hk => ?_, fun b hb => ?_, ?_⟩
  · rw [hinode]
  · rw [Inode.slot_of_lt hk, Inode.slot_of_lt hk]
    simp only [hinode]
    rw [Vector.getElem_setIfInBounds, if_neg (by omega)]
  · rw [hword 12 (by decide) (by decide), Function.update_self]
  · rw [hword k (by omega) hk, Function.update_of_ne (by omega), directBlocks, dif_neg (by omega)]
  · obtain ⟨hle, hnei'⟩ := h.toNat_ne hb hi.clear
    obtain ⟨-, hnej'⟩ := h.toNat_ne hb hclear
    rw [hdisk]
    exact ((hdata _ hle).trans (sameSector_writeSectors (by omega))).trans
      (sameSector_writeSectors (by omega))
  · rw [hdisk, blockEntries_new]
    rfl

theorem WellFormedDir.added_of_indirect (h : WellFormedDir s) {i j : Nat}
    (hzero : s.dirInode.iSectors[12] = 0) (hnew : IndirectMade pDe i j s t) :
    EntryAdded s t (DirEntry.ofBytes pDe 0) := by
  have hslots : ∀ k, 12 ≤ k → s.dirInode.slot s.disk k = 0 := fun k hk => by
    rw [Inode.slot_of_ge hk, if_pos hzero]
  have hslot : ∀ k < 140, k ≠ 12 → t.dirInode.slot t.disk k = s.dirInode.slot s.disk k := by
    intro k hk hne
    by_cases hlt : k < 12
    · exact hnew.direct k hlt
    · rw [hnew.rest k (by omega) hk, hslots k (by omega)]
  constructor
  · refine entries_of_slot (by decide) hslot (fun k hk _ hne => ?_) ?_ ?_
    · exact hnew.same _ (Inode.reaches_slot hk hne)
    · rw [hnew.first]
      exact hnew.nonzero.2
    · rw [hnew.first, hnew.entries, hslots 12 (le_refl 12)]
      simp
  · rw [hnew.size, h.sane.entrySize]
  · rintro b ⟨hne, hb | ⟨k, hk, rfl⟩⟩
    · exact absurd (hb.trans hzero) hne
    · refine ⟨hne, .inr ⟨k, hk, hslot k hk ?_⟩⟩
      rintro rfl
      exact hne (hslots 12 (le_refl 12))
  · rintro b ⟨hne, hb | ⟨k, hk, rfl⟩⟩ hnot
    · rw [hb, hnew.indirect]
      exact hnew.free.1
    · by_cases hk12 : k = 12
      · subst hk12
        rw [hnew.first]
        exact hnew.free.2
      · rw [hslot k hk hk12] at hne hnot
        exact absurd (Inode.reaches_slot hk hne) hnot

theorem WellFormedDir.not_added_of_indirect (h : WellFormedDir s) {i j : Nat}
    (hind : s.dirInode.iSectors[12] ≠ 0) (hnew : IndirectMade pDe i j s t) :
    ¬ EntryAdded s t (DirEntry.ofBytes pDe 0) := by
  intro hadded
  have hreach := @Inode.reaches_indirect _ s.disk hind
  -- its bit is set, and those of the new blocks are clear
  have hused : ∀ b, s.part.BlockBit b false → s.dirInode.iSectors[12] ≠ b := by
    rintro b ⟨m, -, hval, hclear⟩ heq
    exact (h.toNat_ne hreach hclear).2 (heq ▸ hval)
  obtain ⟨-, heq | ⟨k, hk, heq⟩⟩ := hadded.kept _ hreach
  · rw [hnew.indirect] at heq
    exact hused _ hnew.free.1 heq
  · by_cases hlt : k < 12
    · rw [hnew.direct k hlt] at heq
      exact h.indirect k hk (heq ▸ hind) heq
    · by_cases hk12 : k = 12
      · rw [hk12, hnew.first] at heq
        exact hused _ hnew.free.2 heq.symm
      · rw [hnew.rest k (by omega) hk] at heq
        exact hind heq.symm

end Cases

/-- An entry goes to a direct block, or to a new indirect block when the direct blocks are full. -/
theorem WellFormedDir.syncDirEntry_cases {pDe : Nat → UInt8} {s t : DirSync} (h : WellFormedDir s)
    (hs : syncDirEntry pDe s = .ok (true, t)) :
    ¬ DirectFull s ∧ EntryAdded s t (DirEntry.ofBytes pDe 0) ∨
      DirectFull s ∧ ∃ i j, IndirectMade pDe i j s t := by
  obtain ⟨-, -, hloop⟩ := bind_eq_ok.mp hs
  obtain ⟨k, -, hk, hbefore, hcase⟩ := syncLoop_eq_true h.sane.entrySize hloop
  have hdirect : ∀ j, (hj : j < 12) → directBlocks s.dirInode j = s.dirInode.iSectors[j] :=
    fun j hj => dif_pos hj
  have hzero : ∀ j, 12 ≤ j → directBlocks s.dirInode j = 0 := fun j hj => dif_neg (by omega)
  have hle : k ≤ 12 := by
    by_contra hgt
    exact (hbefore 12 (Nat.zero_le _) (by omega)).1 (hzero 12 (le_refl 12))
  rcases hcase with ⟨hne, hnot, hfill⟩ | ⟨heq, ioBuf, hnew⟩
  · have hlt : k < 12 := by
      by_contra hge
      exact hne (hzero k (by omega))
    rw [hdirect k hlt] at hne hnot hfill
    exact .inl ⟨fun hfull => hnot (hfull k hlt).2, h.added_of_filled hlt hne hfill⟩
  · by_cases hlt : k < 12
    · rw [hdirect k hlt] at heq
      refine .inl ⟨fun hfull => (hfull k hlt).1 heq, ?_⟩
      exact h.added_of_direct hlt heq (syncNewBlock_direct h.sane hlt hnew)
    · obtain rfl : k = 12 := by omega
      refine .inr ⟨fun j hj => ?_, h.indirectMade (syncNewBlock_indirect h.sane hnew)⟩
      rw [← hdirect j hj]
      exact hbefore j (Nat.zero_le j) hj

/-- In a well-formed directory an entry is added without a loss exactly when a direct block is
missing or has a free entry, or there is no indirect block. -/
theorem syncDirEntry_added_iff {pDe : Nat → UInt8} {s t : DirSync} (h : WellFormedDir s)
    (hs : syncDirEntry pDe s = .ok (true, t)) :
    EntryAdded s t (DirEntry.ofBytes pDe 0) ↔
      ¬ (DirectFull s ∧ s.dirInode.iSectors[12] ≠ 0) := by
  rcases h.syncDirEntry_cases hs with ⟨hnot, hadded⟩ | ⟨hfull, i, j, hmade⟩
  · exact iff_of_true hadded fun hcond => hnot hcond.1
  · by_cases hind : s.dirInode.iSectors[12] = 0
    · exact iff_of_true (h.added_of_indirect hind hmade) fun hcond => hcond.2 hind
    · exact iff_of_false (h.not_added_of_indirect hind hmade) fun hcond => hcond ⟨hfull, hind⟩

/-! ### A directory that has outgrown its direct blocks -/

section Full

variable {pDe : Nat → UInt8} {allBlocks : Nat → UInt32} {s : DirSync}

theorem syncLoop_of_full {n i : Nat} (hsize : s.part.sb.dirEntrySize = 24) (hi : i < 140)
    (hne : allBlocks i ≠ 0) (hmax : (allBlocks i).toNat ≤ maxLba)
    (hfull : BlockFull s.disk (allBlocks i).toNat) :
    syncLoop pDe allBlocks (n + 1) i s = syncLoop pDe allBlocks n (i + 1)
      { s with ioBuf := readSectors s.disk s.ioBuf (allBlocks i).toNat 1 } := by
  have hspec := @findUnknown_spec (readSectors s.disk s.ioBuf (allBlocks i).toNat 1) 512
    0 (by decide)
  rw [syncLoop, if_pos hi, if_neg hne, ideRead_eq_ok.mpr ⟨.one hmax, rfl⟩, ok_bind]
  dsimp only
  rw [hsize, show (512 / 24 : UInt32).toNat = 21 from rfl]
  cases hfind : findUnknown (readSectors s.disk s.ioBuf (allBlocks i).toNat 1) 21 512 0 with
  | none => rfl
  | some m =>
    rw [hfind] at hspec
    obtain ⟨-, hm, hfree⟩ := hspec
    rw [ofBytes_readSectors hm] at hfree
    exact absurd hfree (hfull m hm)

theorem exists_syncLoop_direct (hsize : s.part.sb.dirEntrySize = 24) (hfull : DirectFull s)
    (hmax : ∀ k, (h : k < 12) → s.dirInode.iSectors[k].toNat ≤ maxLba) {i : Nat} (hi : i ≤ 12) :
    ∃ ioBuf, syncLoop pDe (directBlocks s.dirInode) 140 0 s =
      syncLoop pDe (directBlocks s.dirInode) (140 - i) i { s with ioBuf } := by
  induction i with
  | zero => exact ⟨s.ioBuf, rfl⟩
  | succ i ih =>
    obtain ⟨ioBuf, hloop⟩ := ih (by omega)
    have hblock : directBlocks s.dirInode i = s.dirInode.iSectors[i] := dif_pos (by omega)
    have hstep := @syncLoop_of_full pDe (directBlocks s.dirInode) { s with ioBuf } (140 - (i + 1)) i
      hsize (by omega) (hblock ▸ (hfull i (by omega)).1) (hblock ▸ hmax i (by omega))
      (hblock ▸ (hfull i (by omega)).2)
    rw [show 140 - i = 140 - (i + 1) + 1 by omega] at hloop
    exact ⟨_, hloop.trans hstep⟩

theorem exists_syncNewBlock (h : DirSane s.part) {i j : Nat} (hi : s.part.blockBitmap.FirstClear i)
    (hj : (s.part.blockBitmap.put i true).FirstClear j)
    (hmaxi : (s.part.block i).toNat ≤ maxLba) (hmaxj : (s.part.block j).toNat ≤ maxLba) :
    ∃ t, syncNewBlock pDe allBlocks 12 s = .ok (true, t) := by
  -- both calls of `bitmap_sync` write in front of the data area
  have hsync : ∀ {part : Partition} {m : Nat}, DirSane part → part.blockBitmap.FirstClear m →
      (part.block m).toNat ≤ maxLba → ∀ disk, UInt32.ofNat m ≠ 0xffffffff ∧
        ∃ disk', bitmapSync (part.take m .blockBitmap) (.ofNat m) .blockBitmap disk =
        .ok disk' := by
    intro part m h hm hmax disk
    obtain ⟨hnat, hlba⟩ := h.fit.toNat_ofNat .blockBitmap hm
    have hlen : part.blockBitmap.btmpBytesLen = 512 * part.sb.blockBitmapSects.toNat :=
      h.fit.len .blockBitmap
    have hbits : 8 * part.blockBitmap.btmpBytesLen < 2 ^ 31 := h.fit.bits .blockBitmap
    have hlt := hm.lt
    have hdata := h.dataStart
    rw [(h.toNat_block hm).1] at hmax
    refine ⟨fun heq => ?_, _, bitmapSync_eq_ok.mpr ⟨?_, rfl⟩⟩
    · have hval : m = 0xffffffff := hnat.symm.trans (congrArg UInt32.toNat heq)
      omega
    · rw [Partition.bitmapLba_take, hlba, show part.bitmapLba .blockBitmap = part.sb.blockBitmapLba
        from rfl]
      omega
  obtain ⟨-, hne, hsub⟩ := h.fit.dataStartLba_add hi
  obtain ⟨hidx, disk₁, hdisk₁⟩ := hsync h hi hmaxi s.disk
  obtain ⟨-, hne', hsub'⟩ := (h.take i).fit.dataStartLba_add hj
  obtain ⟨hidx', disk₂, hdisk₂⟩ := hsync (h.take i) hj hmaxj disk₁
  simp only [Partition.sb_take] at hne' hsub'
  rw [Partition.block] at hmaxi hmaxj
  rw [syncNewBlock, blockBitmapAlloc_eq_ok.mpr ⟨i, hi, rfl, rfl⟩, ok_bind]
  dsimp only
  rw [if_neg hne, Partition.sb_take, hsub, assert_of (decide_eq_true hidx), ok_bind,
    hdisk₁, ok_bind,
    if_neg (by decide), if_pos rfl, blockBitmapAlloc_eq_ok.mpr ⟨j, hj, rfl, rfl⟩, ok_bind]
  simp only [Partition.sb_take]
  rw [if_neg hne', hsub', assert_of (decide_eq_true hidx'), ok_bind, hdisk₂, ok_bind,
    Vector.getElem_setIfInBounds, if_pos rfl, ideWrite_eq_ok.mpr ⟨.one hmaxi, rfl⟩, ok_bind,
    ideWrite_eq_ok.mpr ⟨.one hmaxj, rfl⟩]
  exact ⟨_, rfl⟩

end Full

/-- A directory with twelve full direct blocks, an indirect block and a block in its first slot:
blocks 0 to 13 of the partition. Every other byte of the disk is 1. -/
def fullDir : DirSync where
  part := { blankMount.part with
    blockBitmap := ⟨512 * 5, 0, fun k => if k = 0 then 0xff else if k = 1 then 0x3f else 0⟩ }
  disk := fun a =>
    if a / 512 = 3284 then ofWords (fun k => if k = 0 then 3285 else 0) (a % 512) else 1
  dirInode := ⟨1, 273 * 24, 1, 0, .ofFn fun k => 3272 + .ofNat k, 0, 0⟩
  ioBuf := fun _ => 0

theorem fullDir_sane : DirSane fullDir.part := by
  refine ⟨⟨?_, ?_, ?_, ?_, ?_⟩, ?_, ?_⟩
  · rintro ⟨⟩ <;> decide
  · rintro ⟨⟩ <;> decide
  · rintro ⟨⟩ <;> decide
  · decide
  · decide
  · decide
  · decide

theorem fullDir_iSectors {k : Nat} (h : k < 13) :
    (fullDir.dirInode.iSectors[k]).toNat = 3272 + k := by
  have hnat : (UInt32.ofNat k).toNat = k := UInt32.toNat_ofNat_of_lt' (show k < 2 ^ 32 by omega)
  simp only [fullDir, Vector.getElem_ofFn, UInt32.toNat_add, UInt32.reduceToNat, hnat]
  omega

theorem fullDir_slot {k : Nat} (h : k < 140) : (fullDir.dirInode.slot fullDir.disk k).toNat =
    if k < 12 then 3272 + k else if k = 12 then 3285 else 0 := by
  by_cases hlt : k < 12
  · rw [Inode.slot_of_lt hlt, fullDir_iSectors (by omega), if_pos hlt]
  · have hind := fullDir_iSectors (show 12 < 13 by decide)
    have hne : fullDir.dirInode.iSectors[12] ≠ 0 := by
      intro hzero
      rw [hzero] at hind
      exact absurd hind (by decide)
    have hword : wordAt fullDir.disk (512 * 3284 + 4 * (k - 12)) =
        wordAt (ofWords fun k => if k = 0 then 3285 else 0) (4 * (k - 12)) := by
      refine wordAt_congr_shift fun b hb => ?_
      simp only [fullDir]
      rw [if_pos (by omega), show (512 * 3284 + 4 * (k - 12) + b) % 512 = 4 * (k - 12) + b by omega]
    rw [Inode.slot_of_ge (by omega), if_neg hne, hind, if_neg hlt, hword, wordAt,
      load32_ofWords (by split <;> decide)]
    by_cases h12 : k = 12
    · rw [if_pos (by omega), if_pos h12]
      rfl
    · rw [if_neg (by omega), if_neg h12]
      rfl

theorem fullDir_slot_eq_zero {k : Nat} (h : k < 140) :
    fullDir.dirInode.slot fullDir.disk k = 0 ↔ 12 < k := by
  rw [← UInt32.toNat_inj, fullDir_slot h, UInt32.toNat_zero]
  split
  · omega
  · split <;> omega

theorem fullDir_wellFormed : WellFormedDir fullDir := by
  constructor
  · exact fullDir_sane
  · intro j k hle hk hzero
    rw [fullDir_slot_eq_zero (by omega)] at hzero
    rw [fullDir_slot_eq_zero hk]
    omega
  · intro j hj k hk heq hne
    have hval := congrArg UInt32.toNat heq
    rw [ne_eq, fullDir_slot_eq_zero hj] at hne
    rw [fullDir_slot hj, fullDir_slot hk] at hval
    grind
  · intro k hk hne heq
    have hval := congrArg UInt32.toNat heq
    rw [ne_eq, fullDir_slot_eq_zero hk] at hne
    rw [fullDir_slot hk, fullDir_iSectors (by decide)] at hval
    grind
  · -- blocks 0 to 13 are marked
    have hbits : ∀ i < 14, fullDir.part.blockBitmap.bit i = true := by decide
    have hstart : fullDir.part.sb.dataStartLba.toNat = 3272 := by decide
    have hlen : fullDir.part.blockBitmap.btmpBytesLen = 2560 := rfl
    have hblock : ∀ b : UInt32, 3272 ≤ b.toNat → b.toNat < 3286 → fullDir.part.BlockBit b true := by
      intro b hge hlt
      refine ⟨b.toNat - 3272, by omega, by omega, hbits _ (by omega)⟩
    rintro b ⟨hne, rfl | ⟨k, hk, rfl⟩⟩
    · have hval := fullDir_iSectors (show 12 < 13 by decide)
      exact hblock _ (by omega) (by omega)
    · have hval := fullDir_slot hk
      rw [ne_eq, fullDir_slot_eq_zero hk] at hne
      split at hval
      · exact hblock _ (by omega) (by omega)
      · rw [if_pos (by omega)] at hval
        exact hblock _ (by omega) (by omega)

theorem fullDir_directFull : DirectFull fullDir := by
  intro k hk
  have hval := fullDir_iSectors (show k < 13 by omega)
  refine ⟨fun hzero => ?_, fun m hm => ?_⟩
  · rw [hzero, UInt32.toNat_zero] at hval
    omega
  · have hword : wordAt fullDir.disk (512 * fullDir.dirInode.iSectors[k].toNat + 24 * m + 20) =
        wordAt (fun _ => 1) 0 := by
      refine wordAt_congr_shift fun b hb => ?_
      simp only [fullDir] at hval ⊢
      rw [if_neg (by omega)]
    simp only [DirEntry.ofBytes, hword]
    decide

theorem exists_syncDirEntry_fullDir (pDe : Nat → UInt8) :
    ∃ t, syncDirEntry pDe fullDir = .ok (true, t) := by
  have hmax : ∀ k, (h : k < 12) → fullDir.dirInode.iSectors[k].toNat ≤ maxLba := by
    intro k hk
    rw [fullDir_iSectors (by omega), maxLba]
    omega
  obtain ⟨ioBuf, hloop⟩ := @exists_syncLoop_direct pDe fullDir fullDir_sane.entrySize
    fullDir_directFull hmax 12 (le_refl 12)
  have hfirst : fullDir.part.blockBitmap.FirstClear 14 := ⟨by decide, rfl, by decide⟩
  have hsecond : (fullDir.part.blockBitmap.put 14 true).FirstClear 15 := ⟨by decide, rfl, by decide⟩
  obtain ⟨t, hnew⟩ := @exists_syncNewBlock pDe (directBlocks fullDir.dirInode)
    { fullDir with ioBuf } fullDir_sane 14 15 hfirst hsecond
    (show (fullDir.part.block 14).toNat ≤ maxLba by decide)
    (show (fullDir.part.block 15).toNat ≤ maxLba by decide)
  refine ⟨t, ?_⟩
  rw [syncDirEntry, assert_of (by decide), ok_bind, hloop, syncLoop, if_pos (by decide),
    if_pos (by rfl), hnew]

/-- The entry of a regular file `a` with inode 2. -/
def fileEntry : Nat → UInt8 := fun k =>
  if k = 0 then 97 else if k = 16 then 2 else if k = 20 then 1 else 0

theorem syncDirEntry_added_iff_fullDir : ∃ t, syncDirEntry fileEntry fullDir = .ok (true, t) ∧
    (EntryAdded fullDir t (DirEntry.ofBytes fileEntry 0) ↔
      ¬ (DirectFull fullDir ∧ fullDir.dirInode.iSectors[12] ≠ 0)) := by
  obtain ⟨t, ht⟩ := exists_syncDirEntry_fullDir fileEntry
  exact ⟨t, ht, syncDirEntry_added_iff fullDir_wellFormed ht⟩

/-- The entry is added to the directory, whose indirect block is then no longer reached. -/
theorem syncDirEntry_added_fails : WellFormedDir fullDir ∧
    ∃ t, syncDirEntry fileEntry fullDir = .ok (true, t) ∧
      fullDir.dirInode.Reaches fullDir.disk fullDir.dirInode.iSectors[12] ∧
      ¬ EntryAdded fullDir t (DirEntry.ofBytes fileEntry 0) := by
  obtain ⟨t, ht⟩ := exists_syncDirEntry_fullDir fileEntry
  have hne : fullDir.dirInode.iSectors[12] ≠ 0 := by decide
  refine ⟨fullDir_wellFormed, t, ht, Inode.reaches_indirect hne, ?_⟩
  rcases fullDir_wellFormed.syncDirEntry_cases ht with ⟨hnot, -⟩ | ⟨-, i, j, hmade⟩
  · exact absurd fullDir_directFull hnot
  · exact fullDir_wellFormed.not_added_of_indirect hne hmade

end OriginOS
