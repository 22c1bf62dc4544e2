import OriginOS.Fs.FormatSpec

/-! Where `partition_format` puts its regions, and which blocks the block bitmap offers. The block
bitmap has a bit for every sector that is left when the inode table is counted once, but the data
area starts behind two tables. -/

namespace OriginOS

open Lib

def bitAt (buf : Nat → UInt8) (i : Nat) : Bool := (buf (i / 8)).toBitVec.getLsbD (i % 8)

structure Region where
  lba : Nat
  stop : Nat

def Region.Apart (r r' : Region) : Prop := ∀ s, r.lba ≤ s → s < r.stop → s < r'.lba ∨ r'.stop ≤ s

/-- The boot sector, the super block, the block bitmap, the inode bitmap, the inode table and the
data area. -/
def regions (startLba secCnt : UInt32) : List Region :=
  let sb := superBlock startLba secCnt
  [⟨startLba.toNat, startLba.toNat + 1⟩,
    ⟨(startLba + 1).toNat, (startLba + 1).toNat + 1⟩,
    ⟨sb.blockBitmapLba.toNat, sb.blockBitmapLba.toNat + sb.blockBitmapSects.toNat⟩,
    ⟨sb.inodeBitmapLba.toNat, sb.inodeBitmapLba.toNat + sb.inodeBitmapSects.toNat⟩,
    ⟨sb.inodeTableLba.toNat, sb.inodeTableLba.toNat + sb.inodeTableSects.toNat⟩,
    ⟨sb.dataStartLba.toNat, startLba.toNat + secCnt.toNat⟩]

/-- Some disk has a byte in the sector that `partition_format` changes. -/
def WritesSector (part : Partition) (pad : Nat → UInt8) (s : Nat) : Prop :=
  ∃ disk disk' : Disk, partitionFormat part pad disk = .ok disk' ∧
    ∃ k, k < 512 ∧ disk' (512 * s + k) ≠ disk (512 * s + k)

/-- The layout stays inside the partition; `disk'` is the disk that `partition_format` leaves. -/
structure LayoutInside (part : Partition) (pad : Nat → UInt8) (disk' : Disk) : Prop where
  apart : (regions part.startLba part.secCnt).Pairwise Region.Apart
  inside : ∀ s, WritesSector part pad s →
    part.startLba.toNat ≤ s ∧ s < part.startLba.toNat + part.secCnt.toNat
  rootBit : bitAt (fun k => disk' (512 * (part.startLba + 2).toNat + k)) 0 = true
  blocks : ∀ i, i < 4096 * (blockBitmapSects part.secCnt).toNat →
    bitAt (fun k => disk' (512 * (part.startLba + 2).toNat + k)) i = false →
    (superBlock part.startLba part.secCnt).dataStartLba.toNat + i <
      part.startLba.toNat + part.secCnt.toNat

/-! ### The bits of the block bitmap -/

theorem getLsbD_clearBits {lastBit : Nat} (n bitIdx : Nat) (byte : UInt8) {j : Nat} (hj : j < 8)
    (hn : lastBit ≤ bitIdx + n) : (clearBits lastBit n bitIdx byte).toBitVec.getLsbD j =
      if bitIdx ≤ j ∧ j < lastBit then false else byte.toBitVec.getLsbD j := by
  induction n generalizing bitIdx byte with
  | zero =>
    rw [if_neg (by omega)]
    rfl
  | succ n ih =>
    rw [clearBits]
    split
    · next hlt =>
      have hput : byte &&& ~~~ bitmapMask bitIdx = Bitmap.putByte byte bitIdx false := rfl
      rw [ih (bitIdx + 1) _ (by omega), hput, Bitmap.getLsbD_putByte _ _ _ hj]
      split
      · rw [if_pos (by omega)]
      · split
        · rw [if_pos (by omega)]
        · rw [if_neg (by omega)]
    · rw [if_neg (by omega)]

/-- The bits behind the last block are set, and so is bit 0, unless it lies in the byte of the last
block. -/
theorem bitAt_blockBitmapBuf {bitLen : UInt32} {i : Nat}
    (hi : i < 4096 * ((bitLen.toNat + 4095) / 4096)) :
    bitAt (blockBitmapBuf bitLen fun _ => 0) i =
      decide (bitLen.toNat ≤ i ∨ i = 0 ∧ 8 ≤ bitLen.toNat) := by
  have hbyte : (bitLen / 8).toNat = bitLen.toNat / 8 := by rw [UInt32.toNat_div]; rfl
  have hbit : (bitLen % 8).toNat = bitLen.toNat % 8 := by rw [UInt32.toNat_mod]; rfl
  have hones : ∀ k < 8, (0xff : UInt8).toBitVec.getLsbD k = true := by decide
  have hmod : i % 8 < 8 := Nat.mod_lt _ (by decide)
  simp only [bitAt, blockBitmapBuf, hbyte, hbit]
  by_cases hlast : i / 8 = bitLen.toNat / 8
  · rw [hlast, Function.update_self, fill_apply_of_mem (by omega),
      getLsbD_clearBits _ _ _ hmod (by omega), hones _ hmod]
    by_cases hclear : i % 8 < bitLen.toNat % 8
    · rw [if_pos (by omega), eq_comm, decide_eq_false_iff_not]
      omega
    · rw [if_neg (by omega), eq_comm, decide_eq_true_eq]
      omega
  · rw [Function.update_of_ne hlast]
    by_cases hbehind : bitLen.toNat / 8 < i / 8
    · rw [fill_apply_of_mem (by omega), hones _ hmod, eq_comm, decide_eq_true_eq]
      omega
    · rw [fill_apply_of_not (by omega), Function.update_apply]
      by_cases hzero : i / 8 = 0
      · have hone : ∀ k < 8, ((0 : UInt8) ||| 0x01).toBitVec.getLsbD k = decide (k = 0) := by decide
        rw [if_pos hzero, hone _ hmod, decide_eq_decide]
        omega
      · rw [if_neg hzero, eq_comm, UInt8.toBitVec_zero, BitVec.getLsbD_zero,
          decide_eq_false_iff_not]
        omega

/-! ### The layout leaves the partition -/

section Accepted

variable {part : Partition} {pad : Nat → UInt8}

theorem Accepted.bitAt_formatted {disk : Disk} (h : Accepted part.startLba part.secCnt) {i : Nat}
    (hi : i < 4096 * (blockBitmapSects part.secCnt).toNat) :
    bitAt (fun k => formatted part.startLba part.secCnt pad disk
      (512 * (part.startLba + 2).toNat + k)) i =
      decide ((blockBitmapBitLen part.secCnt).toNat ≤ i ∨
        i = 0 ∧ 8 ≤ (blockBitmapBitLen part.secCnt).toNat) := by
  obtain ⟨-, -, -, -, hsects⟩ := OriginOS.blockBitmapSects_pos h.blockBitmapSects_pos
  rw [← bitAt_blockBitmapBuf (by rwa [← hsects])]
  simp only [bitAt]
  rw [h.formatted_blockBitmap (by omega)]

theorem Accepted.writesSector (h : Accepted part.startLba part.secCnt) :
    WritesSector part pad (part.startLba + 1).toNat := by
  let byte := storeWords pad 0 (superBlock part.startLba part.secCnt).words 0
  refine ⟨fun _ => byte + 1, _, partitionFormat_eq_ok.mpr ⟨h, rfl⟩, 0, by decide, ?_⟩
  rw [h.formatted_superBlock (by decide)]
  change byte ≠ byte + 1
  simp

end Accepted

/-- Whatever partition is formatted, the layout does not stay inside it: the last block that the
block bitmap offers lies behind the partition. In a partition with fewer than eight blocks the bit
of the root directory is clear, and a partition at the last sector number wraps to sector 0. -/
theorem layout_leaves_partition {part : Partition} {pad : Nat → UInt8} {disk disk' : Disk}
    (h : partitionFormat part pad disk = .ok disk') : ¬ LayoutInside part pad disk' := by
  obtain ⟨hacc, rfl⟩ := partitionFormat_eq_ok.mp h
  rintro ⟨-, inside, rootBit, blocks⟩
  obtain ⟨bitmap₀, hsec, hpos, hround, hsects⟩ := blockBitmapSects_pos hacc.blockBitmapSects_pos
  obtain ⟨-, -, -, hdata⟩ := hacc.lbas
  rw [hacc.bitAt_formatted (by omega), decide_eq_true_eq] at rootBit
  have hstart : (part.startLba + 1).toNat = part.startLba.toNat + 1 := by
    have hle := (inside _ hacc.writesSector).1
    have hlt := part.startLba.toNat_lt
    simp only [UInt32.toNat_add, UInt32.reduceToNat] at hle ⊢
    omega
  have hlast := blocks ((blockBitmapBitLen part.secCnt).toNat - 1) (by omega)
    (by rw [hacc.bitAt_formatted (by omega), decide_eq_false_iff_not]; omega)
  rw [superBlock_dataStartLba, hdata] at hlast
  have := part.secCnt.toNat_lt
  omega

theorem layout_leaves_partition_sdb1 : ∃ disk' : Disk,
    partitionFormat (.recorded "sdb1" 2048 20000) (fun _ => 0) (fun _ => 0) = .ok disk' ∧
      ¬ LayoutInside (.recorded "sdb1" 2048 20000) (fun _ => 0) disk' :=
  have h := partitionFormat_eq_ok.mpr ⟨by decide, rfl⟩
  ⟨_, h, layout_leaves_partition h⟩

/-- A partition of 20000 sectors from sector 2048 on: block 19383 is free, and its sector is 607
sectors behind the last of the partition. -/
theorem layout_leaves_partition_fails : ∃ disk' : Disk,
    partitionFormat (.recorded "sdb1" 2048 20000) (fun _ => 0) (fun _ => 0) = .ok disk' ∧
      bitAt (fun k => disk' (512 * (2048 + 2) + k)) 19383 = false ∧
      (superBlock 2048 20000).dataStartLba.toNat + 19383 = 2048 + 20000 + 607 ∧
      ¬ LayoutInside (.recorded "sdb1" 2048 20000) (fun _ => 0) disk' := by
  have hacc : Accepted (Partition.recorded "sdb1" 2048 20000).startLba
      (Partition.recorded "sdb1" 2048 20000).secCnt := by decide
  have hbit := @Accepted.bitAt_formatted _ (fun _ => 0) (fun _ => 0) hacc 19383 (by decide)
  refine ⟨_, partitionFormat_eq_ok.mpr ⟨hacc, rfl⟩, hbit.trans (by decide), by decide, fun h => ?_⟩
  exact absurd (h.blocks 19383 (by decide) (hbit.trans (by decide))) (by decide)

end OriginOS
