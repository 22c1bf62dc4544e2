import OriginOS.Fs.Inode

/-! A partition that has been formatted is mounted with the layout and the bitmaps that were
written, and its root directory is found. -/

namespace OriginOS

open Lib

/-! ### Records -/

theorem SuperBlock.ofBytes_storeWords (sb : SuperBlock) (mem : Nat → UInt8) (a : Nat) :
    ofBytes (storeWords mem a sb.words) a = sb := by
  have hword : ∀ i w, sb.words[i]? = some w →
      wordAt (storeWords mem a sb.words) (a + 4 * i) = w := fun i w h => wordAt_storeWords h
  apply SuperBlock.ext
  · exact hword 0 _ rfl
  · exact hword 1 _ rfl
  · exact hword 2 _ rfl
  · exact hword 3 _ rfl
  · exact hword 4 _ rfl
  · exact hword 5 _ rfl
  · exact hword 6 _ rfl
  · exact hword 7 _ rfl
  · exact hword 8 _ rfl
  · exact hword 9 _ rfl
  · exact hword 10 _ rfl
  · exact hword 11 _ rfl
  · exact hword 12 _ rfl

theorem SuperBlock.ofBytes_congr {mem mem' : Nat → UInt8} {a a' : Nat}
    (h : ∀ k, k < 52 → mem' (a' + k) = mem (a + k)) : ofBytes mem' a' = ofBytes mem a := by
  have hword := wordAt_congr_record h
  have h₀ : wordAt mem' a' = wordAt mem a := hword 0 (by omega)
  simp only [ofBytes, h₀, hword 4 (by omega), hword 8 (by omega),
    hword 12 (by omega), hword 16 (by omega),
    hword 20 (by omega), hword 24 (by omega),
    hword 28 (by omega), hword 32 (by omega),
    hword 36 (by omega), hword 40 (by omega),
    hword 44 (by omega), hword 48 (by omega)]

theorem DirEntry.ofBytes_congr {mem mem' : Nat → UInt8} {a a' : Nat}
    (h : ∀ k, k < 24 → mem' (a' + k) = mem (a + k)) : ofBytes mem' a' = ofBytes mem a := by
  have hword := wordAt_congr_record h
  apply DirEntry.ext
  · refine Vector.ext fun k hk => ?_
    simp only [ofBytes, Vector.getElem_ofFn]
    exact h k (by omega)
  · exact hword 16 (by omega)
  · exact hword 20 (by omega)

/-- A name in `filename`, with zeros behind it. -/
def fileName (name : List UInt8) : Vector UInt8 16 := .ofFn fun k => (name[k.val]?).getD 0

theorem rootDirBuf_dot :
    DirEntry.ofBytes rootDirBuf 0 = ⟨fileName [46], 0, FileTypes.directory.toWord⟩ := by decide

theorem rootDirBuf_dotDot :
    DirEntry.ofBytes rootDirBuf 24 = ⟨fileName [46, 46], 0, FileTypes.directory.toWord⟩ := by decide

theorem rootDirBuf_unknown : ∀ k < 21, 2 ≤ k →
    (DirEntry.ofBytes rootDirBuf (24 * k)).fType = FileTypes.unknown.toWord := by decide

/-! ### Format, mount and open -/

/-- The regions that `partition_format` computes lie at sectors up to `max_lba`. -/
structure RegionsWithin (startLba secCnt : UInt32) : Prop where
  superLba : (startLba + 1).toNat ≤ maxLba
  blockBitmap : (superBlock startLba secCnt).blockBitmapLba.toNat +
    (superBlock startLba secCnt).blockBitmapSects.toNat ≤ maxLba + 1
  inodeBitmap : (superBlock startLba secCnt).inodeBitmapLba.toNat +
    (superBlock startLba secCnt).inodeBitmapSects.toNat ≤ maxLba + 1
  inodeTable : (superBlock startLba secCnt).inodeTableLba.toNat +
    (superBlock startLba secCnt).inodeTableSects.toNat ≤ maxLba + 1
  dataStart : (superBlock startLba secCnt).dataStartLba.toNat ≤ maxLba

theorem RegionsWithin.accepted {startLba secCnt : UInt32} (h : RegionsWithin startLba secCnt)
    (hmin : 613 ≤ secCnt.toNat) (hmax : secCnt.toNat ≤ maxLba + 1) : Accepted startLba secCnt := by
  have hpos : 0 < (blockBitmapSects secCnt).toNat :=
    blockBitmapSects_pos_of_le hmin (by simp only [maxLba] at hmax; omega)
  obtain ⟨superLba, blockBitmap, inodeBitmap, inodeTable, dataStart⟩ := h
  simp only [superBlock_blockBitmapLba, superBlock_blockBitmapSects, superBlock_inodeBitmapLba,
    superBlock_inodeBitmapSects, superBlock_inodeTableLba, superBlock_inodeTableSects,
    superBlock_dataStartLba, UInt32.reduceToNat] at *
  exact ⟨superLba, ⟨hpos, by omega⟩, by omega, by omega, dataStart⟩

structure Found (part part' : Partition) (disk' : Disk) : Prop where
  sb : part'.sb = superBlock part.startLba part.secCnt
  blockBitmapLen : part'.blockBitmap.btmpBytesLen = 512 * (blockBitmapSects part.secCnt).toNat
  blockBitmap : ∀ k, k < part'.blockBitmap.btmpBytesLen →
    part'.blockBitmap.bits k = blockBitmapBuf (blockBitmapBitLen part.secCnt) (fun _ => 0) k
  inodeBitmapLen : part'.inodeBitmap.btmpBytesLen = 512
  inodeBitmap : ∀ k, k < 512 → part'.inodeBitmap.bits k = inodeBitmapBuf k
  root : ∃ inode part'', inodeOpen part' part'.sb.rootInodeNo disk' = .ok (inode, part'') ∧
    inode.iNo = 0 ∧ inode.iSize = 2 * part'.sb.dirEntrySize ∧
    inode.iSectors = (Vector.replicate 13 0).set 0 part'.sb.dataStartLba
  dot : DirEntry.ofBytes disk' (512 * part'.sb.dataStartLba.toNat) =
    ⟨fileName [46], 0, FileTypes.directory.toWord⟩
  dotDot : DirEntry.ofBytes disk' (512 * part'.sb.dataStartLba.toNat + 24) =
    ⟨fileName [46, 46], 0, FileTypes.directory.toWord⟩
  unknown : ∀ k, 2 ≤ k → k < 512 / 24 →
    (DirEntry.ofBytes disk' (512 * part'.sb.dataStartLba.toNat + 24 * k)).fType =
      FileTypes.unknown.toWord

namespace Accepted

variable {startLba secCnt : UInt32} {pad : Nat → UInt8} {disk : Disk}

theorem superBlock_read (h : Accepted startLba secCnt) (buf : Nat → UInt8) :
    SuperBlock.ofBytes (readSectors (formatted startLba secCnt pad disk) buf
      (startLba + 1).toNat 1) 0 = superBlock startLba secCnt := by
  rw [← SuperBlock.ofBytes_storeWords (superBlock startLba secCnt) pad 0]
  refine SuperBlock.ofBytes_congr fun k hk => ?_
  rw [Nat.zero_add, readSectors_apply (by omega), h.formatted_superBlock (by omega)]

theorem dirEntry_read (k : Nat) (hk : 24 * k + 24 ≤ 512) :
    DirEntry.ofBytes (formatted startLba secCnt pad disk)
      (512 * (superBlock startLba secCnt).dataStartLba.toNat + 24 * k) =
      DirEntry.ofBytes rootDirBuf (24 * k) := by
  refine DirEntry.ofBytes_congr fun j hj => ?_
  rw [superBlock_dataStartLba, Nat.add_assoc]
  exact formatted_root (by omega)

theorem inode_read (h : Accepted startLba secCnt) :
    Inode.ofBytes (formatted startLba secCnt pad disk)
      (512 * (superBlock startLba secCnt).inodeTableLba.toNat) =
      ⟨0, (superBlock startLba secCnt).dirEntrySize * 2, 0, 0,
        (Vector.replicate 13 0).set 0 (superBlock startLba secCnt).dataStartLba, 0, 0⟩ := by
  rw [superBlock_inodeTableLba]
  have hword : ∀ j, j < 19 → _ := fun j (hj : j < 19) =>
    @wordAt_inodeTable _ _ pad disk h j (by omega)
  apply Inode.ext
  · exact hword 0 (by decide)
  · exact hword 1 (by decide)
  · exact hword 2 (by decide)
  · exact hword 3 (by decide)
  · refine Vector.ext fun k hk => ?_
    simp only [Inode.ofBytes, Vector.getElem_ofFn, Vector.getElem_set, Vector.getElem_replicate]
    rw [Nat.add_assoc, show 16 + 4 * k = 4 * (4 + k) by omega, hword (4 + k) (by omega)]
    by_cases h0 : k = 0
    · rw [if_pos (by omega), if_pos h0.symm]
    · rw [if_neg (by omega), if_neg (by omega), if_neg (Ne.symm h0)]
  · exact hword 17 (by decide)
  · exact hword 18 (by decide)

end Accepted

/-- The partition that `mount_partition` leaves. -/
def mounted (part : Partition) (blockBits inodeBits : HeapBlock) (disk : Disk) : Partition :=
  let sb := superBlock part.startLba part.secCnt
  { part with
    sb
    blockBitmap := ⟨(sb.blockBitmapSects * 512).toNat, blockBits.addr,
      readSectors disk blockBits.bytes sb.blockBitmapLba.toNat sb.blockBitmapSects.toNat⟩
    inodeBitmap := ⟨512, inodeBits.addr, readSectors disk inodeBits.bytes sb.inodeBitmapLba.toNat 1⟩
    openInodes := [] }

section Mount

variable {part : Partition} {pad : Nat → UInt8} {disk : Disk} {blockBits inodeBits : HeapBlock}

theorem mountPartition_formatted (h : Accepted part.startLba part.secCnt) :
    mountPartition part part.name blockBits inodeBits
      (formatted part.startLba part.secCnt pad disk) =
      .ok (some (mounted part blockBits inodeBits
        (formatted part.startLba part.secCnt pad disk))) := by
  rw [mountPartition, if_pos rfl, ideRead_eq_ok.mpr ⟨.one h.superLba, rfl⟩, ok_bind]
  dsimp only
  rw [h.superBlock_read, superBlock_blockBitmapLba, superBlock_blockBitmapSects,
    ideRead_eq_ok.mpr ⟨h.blockBitmapLba, rfl⟩, ok_bind, superBlock_inodeBitmapLba,
    superBlock_inodeBitmapSects, UInt32.toNat_one, ideRead_eq_ok.mpr ⟨.one h.inodeBitmapLba, rfl⟩]
  rfl

theorem Found.mounted (h : Accepted part.startLba part.secCnt) :
    Found part (mounted part blockBits inodeBits (formatted part.startLba part.secCnt pad disk))
      (formatted part.startLba part.secCnt pad disk) := by
  have hlen : (blockBitmapSects part.secCnt * 512).toNat =
      512 * (blockBitmapSects part.secCnt).toNat := by
    have hbound := h.blockBitmapLba.2
    rw [UInt32.toNat_mul, show (512 : UInt32).toNat = 512 from rfl]
    simp only [maxLba] at hbound
    omega
  have hopen := @inodeOpen_ok (OriginOS.mounted part blockBits inodeBits
    (formatted part.startLba part.secCnt pad disk)) (formatted part.startLba part.secCnt pad disk) 0
    (LaidOut.inodeTable_le ⟨h, rfl⟩) (by decide) rfl
  constructor
  · rfl
  · exact hlen
  · intro k hk
    have hlt : k < 512 * (blockBitmapSects part.secCnt).toNat := hlen ▸ hk
    exact (readSectors_apply hlt).trans (h.formatted_blockBitmap hlt)
  · rfl
  · intro k hk
    exact (readSectors_apply hk).trans (h.formatted_inodeBitmap hk)
  · refine ⟨_, _, hopen, ?_⟩
    rw [inodeSlot, UInt32.toNat_zero, Nat.mul_zero, Nat.add_zero, OriginOS.mounted, h.inode_read]
    exact ⟨rfl, UInt32.mul_comm .., rfl⟩
  · have hdot := @Accepted.dirEntry_read part.startLba part.secCnt pad disk 0 (by decide)
    rw [Nat.mul_zero, Nat.add_zero] at hdot
    exact hdot.trans rootDirBuf_dot
  · exact (Accepted.dirEntry_read 1 (by decide)).trans rootDirBuf_dotDot
  · intro k hk hlt
    have hentry := @Accepted.dirEntry_read part.startLba part.secCnt pad disk k (by omega)
    exact (congrArg DirEntry.fType hentry).trans (rootDirBuf_unknown k (by omega) hk)

end Mount

/-- Formatting a partition and then mounting it finds the layout and the bitmaps that were written,
and the root directory. -/
theorem format_mount_open (part : Partition) (pad : Nat → UInt8) (disk : Disk)
    (blockBits inodeBits : HeapBlock) (hmin : 613 ≤ part.secCnt.toNat)
    (hmax : part.secCnt.toNat ≤ maxLba + 1) (hwithin : RegionsWithin part.startLba part.secCnt) :
    ∃ disk' part', partitionFormat part pad disk = .ok disk' ∧
      mountPartition part part.name blockBits inodeBits disk' = .ok (some part') ∧
      Found part part' disk' := by
  have h := hwithin.accepted hmin hmax
  exact ⟨_, _, partitionFormat_eq_ok.mpr ⟨h, rfl⟩, mountPartition_formatted h, .mounted h⟩

theorem format_mount_open_sdb1 : ∃ disk' part',
    partitionFormat (.recorded "sdb1" 2048 20000) (fun _ => 0) (fun _ => 0) = .ok disk' ∧
      mountPartition (.recorded "sdb1" 2048 20000) "sdb1" ⟨0, fun _ => 0⟩ ⟨0, fun _ => 0⟩ disk' =
        .ok (some part') ∧ Found (.recorded "sdb1" 2048 20000) part' disk' :=
  format_mount_open _ _ _ _ _ (by decide) (by decide)
    ⟨by decide, by decide, by decide, by decide, by decide⟩

end OriginOS
