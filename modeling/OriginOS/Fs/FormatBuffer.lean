import OriginOS.Fs.Layout
import OriginOS.Lib.Stores

/-! The buffer of `partition_format`: which of its bytes are written, and what the block bitmap that
is made in it looks like behind the last block. -/

namespace OriginOS

open Lib

def bufSize (sb : SuperBlock) : UInt32 :=
  let bufSize := if sb.blockBitmapSects ≥ sb.inodeBitmapSects then sb.blockBitmapSects
    else sb.inodeBitmapSects
  (if bufSize ≥ sb.inodeTableSects then bufSize else sb.inodeTableSects) * 512

/-- A use of the buffer: the stores into it, and where how many of its sectors are written. -/
structure BufferUse where
  stores : List Store
  lba : UInt32
  sects : UInt32

/-- The stores for the block bitmap. Each pass of the loop clears one bit. -/
def blockBitmapStores (bitLen : UInt32) : List Store :=
  let lastByte := (bitLen / 8).toNat
  let lastBit := (bitLen % 8).toNat
  let lastSize := 512 - lastByte % 512
  [.byte 0 (· ||| 0x01), .set lastByte lastSize 0xff] ++
    (List.range' 0 lastBit).map fun bitIdx => .byte lastByte (· &&& ~~~ bitmapMask bitIdx)

/-- The four uses of the buffer: block bitmap, inode bitmap, inode table and root directory. -/
def bufferUses (startLba secCnt : UInt32) : List BufferUse :=
  let sb := superBlock startLba secCnt
  let clear : Store := .set 0 (bufSize sb).toNat 0
  [⟨blockBitmapStores (blockBitmapBitLen secCnt), sb.blockBitmapLba, sb.blockBitmapSects⟩,
    ⟨[clear, .byte 0 (· ||| 0x1)], sb.inodeBitmapLba, sb.inodeBitmapSects⟩,
    ⟨[clear, .word 4 (sb.dirEntrySize * 2).toNat, .word 0 0, .word 16 sb.dataStartLba.toNat],
      sb.inodeTableLba, sb.inodeTableSects⟩,
    ⟨[clear, .bytes 0 [46], .word 16 0, .word 20 FileTypes.directory.toWord.toNat,
      .bytes 24 [46, 46], .word 40 0, .word 44 FileTypes.directory.toWord.toNat],
      sb.dataStartLba, 1⟩]

def runUses : List BufferUse → (Nat → UInt8) → Disk → Except Panic Disk
  | [], _, disk => .ok disk
  | u :: us, buf, disk => do
    let buf := Store.runAll u.stores buf
    let disk ← ideWrite disk u.lba.toNat buf u.sects.toNat
    runUses us buf disk

theorem runAll_clearBits (lastByte : Nat) {lastBit n m : Nat} (k : Nat) (hk : k + n = lastBit)
    (hn : n ≤ m) (buf : Nat → UInt8) :
    Store.runAll ((List.range' k n).map fun bitIdx =>
      .byte lastByte (· &&& ~~~ bitmapMask bitIdx)) buf =
      Function.update buf lastByte (clearBits lastBit m k (buf lastByte)) := by
  induction n generalizing k m buf with
  | zero =>
    have hdone : clearBits lastBit m k (buf lastByte) = buf lastByte := by
      cases m with
      | zero => rfl
      | succ m => exact if_neg (by omega)
    rw [hdone, Function.update_eq_self]
    rfl
  | succ n ih =>
    obtain ⟨m, rfl⟩ : ∃ j, m = j + 1 := ⟨m - 1, by omega⟩
    rw [List.range'_succ, List.map_cons, Store.runAll_cons, Store.run_byte,
      ih (k + 1) (by omega) (Nat.le_of_succ_le_succ hn), Function.update_self,
      Function.update_idem, clearBits,
      if_pos (by omega)]

theorem runAll_blockBitmapStores (bitLen : UInt32) (buf : Nat → UInt8) :
    Store.runAll (blockBitmapStores bitLen) buf = blockBitmapBuf bitLen buf := by
  have hbit : (bitLen % 8).toNat ≤ 8 := by
    rw [UInt32.toNat_mod]
    exact (Nat.mod_lt _ (by decide)).le
  rw [blockBitmapStores, Store.runAll_append, runAll_clearBits _ 0 (Nat.zero_add _) hbit,
    Store.runAll_cons, Store.runAll_cons, Store.runAll_nil, Store.run_byte, Store.run_set]
  rfl

/-- `partition_format` writes the super block, and then what is made in the buffer. -/
theorem partitionFormat_eq_uses (part : Partition) (pad : Nat → UInt8) (disk : Disk) :
    partitionFormat part pad disk = (do
      let disk ← ideWrite disk (part.startLba + 1).toNat
        (storeWords pad 0 (superBlock part.startLba part.secCnt).words) 1
      runUses (bufferUses part.startLba part.secCnt) (fun _ => 0) disk) := by
  have hlast : ∀ x : Except Panic Disk, (x >>= fun disk => .ok disk) = x := fun x => by
    cases x <;> rfl
  unfold partitionFormat bufferUses
  generalize superBlock part.startLba part.secCnt = sb
  simp only [runUses, runAll_blockBitmapStores, hlast, Store.runAll_cons, Store.runAll_nil,
    Store.run_set, Store.run_byte, Store.run_word, Store.run_bytes]
  generalize hsize : (bufSize sb).toNat = size
  unfold bufSize at hsize
  simp only [hsize, rootInodeBuf, rootEntryBuf]
  rfl

/-! ### The bits behind the last block -/

/-- In a block bitmap of this length, the bits of the blocks are clear apart from bit 0, and the
other bits of the sectors are set. -/
structure TailExact (bitLen sects : UInt32) (bits : Nat → UInt8) : Prop where
  clear : ∀ i, 1 ≤ i → i < bitLen.toNat → bitAt bits i = false
  set : ∀ i, bitLen.toNat ≤ i → i < 4096 * sects.toNat → bitAt bits i = true

section Sizes

variable {startLba secCnt : UInt32}

theorem tailExact_blockBitmapBuf (hpos : 0 < (blockBitmapSects secCnt).toNat) :
    TailExact (blockBitmapBitLen secCnt) (blockBitmapSects secCnt)
      (blockBitmapBuf (blockBitmapBitLen secCnt) fun _ => 0) := by
  obtain ⟨-, -, -, -, hsects⟩ := blockBitmapSects_pos hpos
  refine ⟨fun i hone hi => ?_, fun i hi hlt => ?_⟩
  · rw [bitAt_blockBitmapBuf (by omega), decide_eq_false_iff_not]
    omega
  · rw [bitAt_blockBitmapBuf (by omega), decide_eq_true_eq]
    exact .inl hi

theorem TailExact.congr {bitLen : UInt32} {bits bits' : Nat → UInt8}
    (h : TailExact bitLen (blockBitmapSects secCnt) bits)
    (hlen : bitLen.toNat ≤ 4096 * (blockBitmapSects secCnt).toNat)
    (heq : ∀ k < 512 * (blockBitmapSects secCnt).toNat, bits' k = bits k) :
    TailExact bitLen (blockBitmapSects secCnt) bits' := by
  have hbit : ∀ i < 4096 * (blockBitmapSects secCnt).toNat, bitAt bits' i = bitAt bits i :=
    fun i hi => by rw [bitAt, bitAt, heq _ (by omega)]
  refine ⟨fun i hone hi => ?_, fun i hi hlt => ?_⟩
  · rw [hbit i (by omega)]
    exact h.clear i hone hi
  · rw [hbit i hlt]
    exact h.set i hi hlt

theorem toNat_bufSize_superBlock (h : (blockBitmapSects secCnt).toNat ≤ 608) :
    (bufSize (superBlock startLba secCnt)).toNat = 512 * 608 := by
  rw [bufSize, superBlock_blockBitmapSects, superBlock_inodeBitmapSects, superBlock_inodeTableSects]
  rw [toNat_bufSize _ (by omega)]
  omega

theorem bufferUses_within (hlen : (blockBitmapBitLen secCnt).toNat / 8 + 512 ≤ 512 * 608)
    (hsize : (bufSize (superBlock startLba secCnt)).toNat = 512 * 608) :
    ∀ u ∈ bufferUses startLba secCnt, ∀ s ∈ u.stores,
      s.Within (bufSize (superBlock startLba secCnt)).toNat := by
  have hlast : (blockBitmapBitLen secCnt / 8).toNat = (blockBitmapBitLen secCnt).toNat / 8 := by
    rw [UInt32.toNat_div]
    rfl
  simp only [bufferUses, hsize, List.forall_mem_cons, List.not_mem_nil, false_implies, implies_true,
    and_true]
  refine ⟨?_, by simp [Store.Within, Store.set, Store.byte],
    by simp [Store.Within, Store.set, Store.word],
    by simp [Store.Within, Store.set, Store.word, Store.bytes]⟩
  unfold blockBitmapStores
  simp only [List.forall_mem_append, List.forall_mem_cons, List.forall_mem_map, List.not_mem_nil,
    false_implies, implies_true, and_true, hlast, Store.Within, Store.byte, Store.set]
  exact ⟨⟨by omega, by omega⟩, fun _ _ => by omega⟩

end Sizes

/-- For every partition of a size that the disk can have: the bits of the block bitmap that
`partition_format` writes are clear up to the last block and set behind it, whatever the last byte
and the last sector are, and the stores for it and for the other regions stay in the buffer. -/
theorem block_bitmap_tail_exact (part : Partition) (hmin : 613 ≤ part.secCnt.toNat)
    (hmax : part.secCnt.toNat ≤ maxLba + 1) :
    let sb := superBlock part.startLba part.secCnt
    let bitLen := blockBitmapBitLen part.secCnt
    let written (disk : Disk) (k : Nat) := disk (512 * sb.blockBitmapLba.toNat + k)
    1 ≤ bitLen.toNat ∧
    (∀ disk disk', ideWrite disk sb.blockBitmapLba.toNat
      (Store.runAll (blockBitmapStores bitLen) fun _ => 0) sb.blockBitmapSects.toNat = .ok disk' →
      TailExact bitLen sb.blockBitmapSects (written disk')) ∧
    (∀ pad disk disk', partitionFormat part pad disk = .ok disk' →
      TailExact bitLen sb.blockBitmapSects (written disk')) ∧
    ∀ u ∈ bufferUses part.startLba part.secCnt, ∀ s ∈ u.stores, s.Within (bufSize sb).toNat := by
  intro sb bitLen written
  have hpos := blockBitmapSects_pos_of_le hmin (by unfold maxLba at hmax; omega)
  obtain ⟨bitmap₀, hsec, hone, hround, hsects⟩ := blockBitmapSects_pos hpos
  have hexact := tailExact_blockBitmapBuf hpos
  unfold maxLba at hmax
  refine ⟨hone, fun disk disk' hwrite => ?_, fun pad disk disk' hformat => ?_,
    bufferUses_within (by omega) (toNat_bufSize_superBlock (by omega))⟩
  · obtain ⟨-, rfl⟩ := ideWrite_eq_ok.mp hwrite
    refine hexact.congr (by omega) fun k hk => ?_
    rw [← runAll_blockBitmapStores]
    exact writeSectors_apply hk
  · obtain ⟨hacc, rfl⟩ := partitionFormat_eq_ok.mp hformat
    exact hexact.congr (by omega) fun k hk => hacc.formatted_blockBitmap hk

/-- A partition of 4709 sectors has 4096 blocks: the first rounding gives two sectors for their bits
and the second one, and the bytes set behind the bitmap are not written to the disk. -/
theorem block_bitmap_tail_exact_oneSector :
    let part := Partition.recorded "sdb1" 0 4709
    (613 ≤ part.secCnt.toNat ∧ part.secCnt.toNat ≤ maxLba + 1) ∧
    ∃ disk', partitionFormat part (fun _ => 0) (fun _ => 0) = .ok disk' ∧
      TailExact 4096 1 fun k => disk' (512 * 2 + k) :=
  ⟨by decide, _, partitionFormat_eq_ok.mpr ⟨by decide, rfl⟩,
    (block_bitmap_tail_exact (.recorded "sdb1" 0 4709) (by decide) (by decide)).2.2.1 _ _ _
      (partitionFormat_eq_ok.mpr ⟨by decide, rfl⟩)⟩

end OriginOS
