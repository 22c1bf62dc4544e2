import OriginOS.Fs.Format

/-! What `partition_format` writes: the sizes that it computes, when it returns, and the disk that
it leaves. -/

namespace OriginOS

open Lib

/-! ### The sizes -/

theorem inodeBitmapSects_eq : inodeBitmapSects = 1 := by decide

theorem inodeTableSects_eq : inodeTableSects = 608 := by decide

theorem usedSects_eq : usedSects = 611 := by decide

theorem toNat_divRoundUp (x : UInt32) :
    (divRoundUp x 4096).toNat = (x.toNat + 4095) % 2 ^ 32 / 4096 := by
  have := x.toNat_lt
  simp only [divRoundUp, UInt32.toNat_div, UInt32.toNat_sub, UInt32.toNat_add, UInt32.reduceToNat]
  omega

section Sizes

variable {secCnt : UInt32}

/-- A partition that is large enough for a sector of the block bitmap has no overflow in its sizes.
-/
theorem blockBitmapSects_pos (h : 0 < (blockBitmapSects secCnt).toNat) :
    ∃ bitmap₀ : Nat, secCnt.toNat = 611 + bitmap₀ + (blockBitmapBitLen secCnt).toNat ∧
      0 < (blockBitmapBitLen secCnt).toNat ∧
      bitmap₀ = (bitmap₀ + (blockBitmapBitLen secCnt).toNat + 4095) / 4096 ∧
      (blockBitmapSects secCnt).toNat = ((blockBitmapBitLen secCnt).toNat + 4095) / 4096 := by
  have hlt := secCnt.toNat_lt
  have hfree : (secCnt - usedSects).toNat = (secCnt.toNat + (2 ^ 32 - 611)) % 2 ^ 32 := by
    simp only [UInt32.toNat_sub, usedSects_eq, UInt32.reduceToNat]
    omega
  have hlen : (blockBitmapBitLen secCnt).toNat = (2 ^ 32 -
      ((secCnt - usedSects).toNat + 4095) % 2 ^ 32 / 4096 + (secCnt - usedSects).toNat) %
      2 ^ 32 := by
    simp only [blockBitmapBitLen, UInt32.toNat_sub (secCnt - usedSects), toNat_divRoundUp]
  rw [blockBitmapSects, toNat_divRoundUp] at h ⊢
  generalize (blockBitmapBitLen secCnt).toNat = bitLen at h hlen ⊢
  generalize (secCnt - usedSects).toNat = free at hfree hlen
  -- when the rounding of the free sectors overflows, the bitmap has no sector
  have hround : free + 4095 < 2 ^ 32 := by
    by_contra hge
    have hzero : (free + 4095) % 2 ^ 32 / 4096 = 0 := by omega
    have hall : bitLen = free := by omega
    omega
  have hsec : secCnt.toNat = 611 + free := by omega
  have hbit : bitLen = free - (free + 4095) / 4096 := by omega
  refine ⟨(free + 4095) / 4096, ?_⟩
  omega

/-- A partition of 613 sectors or more has a block bitmap, unless the rounding overflows. -/
theorem blockBitmapSects_pos_of_le (hmin : 613 ≤ secCnt.toNat) (hmax : secCnt.toNat < 2 ^ 31) :
    0 < (blockBitmapSects secCnt).toNat := by
  have hfree : (secCnt - usedSects).toNat = secCnt.toNat - 611 := by
    simp only [UInt32.toNat_sub, usedSects_eq, UInt32.reduceToNat]
    omega
  have hlen : (blockBitmapBitLen secCnt).toNat =
      secCnt.toNat - 611 - (secCnt.toNat - 611 + 4095) / 4096 := by
    simp only [blockBitmapBitLen, UInt32.toNat_sub (secCnt - usedSects), toNat_divRoundUp, hfree]
    omega
  have hpos : 0 < (blockBitmapBitLen secCnt).toNat := by omega
  have hlt : (blockBitmapBitLen secCnt).toNat < 2 ^ 31 := by omega
  rw [blockBitmapSects, toNat_divRoundUp]
  omega

end Sizes

/-! ### The disk afterwards -/

/-- `partition_format` returns for a partition at these sectors: every transfer is tested. -/
structure Accepted (startLba secCnt : UInt32) : Prop where
  superLba : (startLba + 1).toNat ≤ maxLba
  blockBitmapLba : Transferable (startLba + 2).toNat (blockBitmapSects secCnt).toNat
  inodeBitmapLba : (startLba + 2 + blockBitmapSects secCnt).toNat ≤ maxLba
  inodeTableLba : (startLba + 3 + blockBitmapSects secCnt).toNat + 512 ≤ maxLba
  rootLba : (startLba + 1219 + blockBitmapSects secCnt).toNat ≤ maxLba

instance (startLba secCnt : UInt32) : Decidable (Accepted startLba secCnt) :=
  decidable_of_iff (_ ∧ _ ∧ _ ∧ _ ∧ _)
    ⟨fun ⟨h₁, h₂, h₃, h₄, h₅⟩ => ⟨h₁, h₂, h₃, h₄, h₅⟩, fun ⟨h₁, h₂, h₃, h₄, h₅⟩ =>
    ⟨h₁, h₂, h₃, h₄, h₅⟩⟩

section Superblock

variable (startLba secCnt : UInt32)

@[simp] theorem superBlock_blockBitmapLba :
    (superBlock startLba secCnt).blockBitmapLba = startLba + 2 := rfl

@[simp] theorem superBlock_blockBitmapSects :
    (superBlock startLba secCnt).blockBitmapSects = blockBitmapSects secCnt := rfl

@[simp] theorem superBlock_inodeBitmapLba :
    (superBlock startLba secCnt).inodeBitmapLba = startLba + 2 + blockBitmapSects secCnt := rfl

@[simp] theorem superBlock_inodeBitmapSects :
    (superBlock startLba secCnt).inodeBitmapSects = 1 := by
  rw [← inodeBitmapSects_eq]; rfl

@[simp] theorem superBlock_inodeTableLba :
    (superBlock startLba secCnt).inodeTableLba = startLba + 3 + blockBitmapSects secCnt := by
  have : (superBlock startLba secCnt).inodeTableLba =
      startLba + 2 + blockBitmapSects secCnt + inodeBitmapSects := rfl
  rw [this, inodeBitmapSects_eq]
  grind

@[simp] theorem superBlock_inodeTableSects :
    (superBlock startLba secCnt).inodeTableSects = 608 := by
  rw [← inodeTableSects_eq]; rfl

@[simp] theorem superBlock_dataStartLba :
    (superBlock startLba secCnt).dataStartLba = startLba + 1219 + blockBitmapSects secCnt := by
  have : (superBlock startLba secCnt).dataStartLba =
      (superBlock startLba secCnt).inodeTableLba + inodeTableSects + inodeTableSects := rfl
  rw [this, superBlock_inodeTableLba, inodeTableSects_eq]
  grind

end Superblock

/-- The sector of the inode bitmap: the root directory has inode 0. -/
def inodeBitmapBuf : Nat → UInt8 := Function.update (fun _ => 0) 0 0x1

/-- The sector of the root directory: its entries `.` and `..`. -/
def rootDirBuf : Nat → UInt8 := rootEntryBuf [46, 46] 24 (rootEntryBuf [46] 0 fun _ => 0)

def formatted (startLba secCnt : UInt32) (pad : Nat → UInt8) (disk : Disk) : Disk :=
  let sb := superBlock startLba secCnt
  let disk := writeSectors disk (storeWords pad 0 sb.words) (startLba + 1).toNat 1
  let disk := writeSectors disk (blockBitmapBuf (blockBitmapBitLen secCnt) fun _ => 0)
    sb.blockBitmapLba.toNat sb.blockBitmapSects.toNat
  let disk := writeSectors disk inodeBitmapBuf sb.inodeBitmapLba.toNat 1
  let disk := writeSectors disk (rootInodeBuf sb fun _ => 0) sb.inodeTableLba.toNat 608
  writeSectors disk rootDirBuf sb.dataStartLba.toNat 1

theorem rootInodeBuf_congr {sb : SuperBlock} {buf buf' : Nat → UInt8} {k : Nat}
    (h : buf' k = buf k) : rootInodeBuf sb buf' k = rootInodeBuf sb buf k :=
  store32_apply_congr (store32_apply_congr (store32_apply_congr h))

theorem rootEntryBuf_congr {name : List UInt8} {a k : Nat} {buf buf' : Nat → UInt8}
    (h : buf' k = buf k) : rootEntryBuf name a buf' k = rootEntryBuf name a buf k := by
  refine store32_apply_congr (store32_apply_congr ?_)
  rw [h]

section Cleared

variable {disk buf : Nat → UInt8} {lba n : Nat}

theorem fill_clear {k : Nat} (h : k < n) : fill buf 0 n 0 k = 0 := fill_apply_of_mem (by omega)

theorem writeSectors_inodeBitmapBuf (h : 512 ≤ n) :
    writeSectors disk (Function.update (fill buf 0 n 0) 0 (fill buf 0 n 0 0 ||| 0x1)) lba 1 =
      writeSectors disk inodeBitmapBuf lba 1 := by
  refine writeSectors_congr fun k hk => ?_
  rw [inodeBitmapBuf, fill_clear (by omega), UInt8.zero_or, Function.update_apply,
    Function.update_apply, fill_clear (by omega)]

theorem writeSectors_rootInodeBuf {sb : SuperBlock} (h : 512 * 608 ≤ n) :
    writeSectors disk (rootInodeBuf sb (fill buf 0 n 0)) lba 608 =
      writeSectors disk (rootInodeBuf sb fun _ => 0) lba 608 :=
  writeSectors_congr fun _ hk => rootInodeBuf_congr (fill_clear (by omega))

theorem writeSectors_rootDirBuf (h : 512 ≤ n) :
    writeSectors disk (rootEntryBuf [46, 46] 24 (rootEntryBuf [46] 0 (fill buf 0 n 0))) lba 1 =
      writeSectors disk rootDirBuf lba 1 :=
  writeSectors_congr fun _ hk => rootEntryBuf_congr (rootEntryBuf_congr (fill_clear (by omega)))

end Cleared

theorem toNat_bufSize (sects : UInt32) (h : sects.toNat ≤ 2 ^ 20) :
    ((if (if sects ≥ 1 then sects else 1) ≥ 608 then (if sects ≥ 1 then sects else 1) else 608) *
      (512 : UInt32)).toNat = 512 * max sects.toNat 608 := by
  by_cases h1 : 1 ≤ sects
  · rw [if_pos h1]
    by_cases h608 : 608 ≤ sects
    · have hle : 608 ≤ sects.toNat := UInt32.le_iff_toNat_le.mp h608
      rw [if_pos h608, UInt32.toNat_mul, max_eq_left hle, show (512 : UInt32).toNat = 512 from rfl]
      omega
    · have hlt : sects.toNat < 608 := UInt32.lt_iff_toNat_lt.mp (UInt32.not_le.mp h608)
      rw [if_neg h608, max_eq_right hlt.le]
      rfl
  · have hlt : sects.toNat < 1 := UInt32.lt_iff_toNat_lt.mp (UInt32.not_le.mp h1)
    rw [if_neg h1, if_neg (by decide), max_eq_right (by omega)]
    rfl

theorem partitionFormat_eq_ok {part : Partition} {pad : Nat → UInt8} {disk disk' : Disk} :
    partitionFormat part pad disk = .ok disk' ↔ Accepted part.startLba part.secCnt ∧
      disk' = formatted part.startLba part.secCnt pad disk := by
  have hsects : (blockBitmapSects part.secCnt).toNat ≤ 2 ^ 20 := by
    rw [blockBitmapSects, toNat_divRoundUp]
    omega
  have hroom := le_max_right (blockBitmapSects part.secCnt).toNat 608
  have hone : (1 : UInt32).toNat = 1 := rfl
  have h608 : (608 : UInt32).toNat = 608 := rfl
  simp only [partitionFormat, formatted, bind_eq_ok, ideWrite_eq_ok, superBlock_blockBitmapSects,
    superBlock_inodeBitmapSects, superBlock_inodeTableSects, toNat_bufSize _ hsects, hone, h608]
  generalize max (blockBitmapSects part.secCnt).toNat 608 = room at hroom
  simp only [writeSectors_inodeBitmapBuf (show 512 ≤ 512 * room by omega),
    writeSectors_rootInodeBuf (show 512 * 608 ≤ 512 * room by omega),
    writeSectors_rootDirBuf (show 512 ≤ 512 * room by omega), superBlock_blockBitmapLba,
    superBlock_inodeBitmapLba, superBlock_inodeTableLba, superBlock_dataStartLba]
  constructor
  · rintro ⟨-, ⟨hsuper, rfl⟩, -, ⟨hblock, rfl⟩, -, ⟨hinode, rfl⟩, -, ⟨htable, rfl⟩, hroot, rfl⟩
    exact ⟨⟨hsuper.2, hblock, hinode.2, htable.2, hroot.2⟩, rfl⟩
  · rintro ⟨⟨hsuper, hblock, hinode, htable, hroot⟩, rfl⟩
    exact ⟨_, ⟨.one hsuper, rfl⟩, _, ⟨hblock, rfl⟩, _, ⟨.one hinode, rfl⟩, _,
      ⟨⟨by omega, htable⟩, rfl⟩, .one hroot, rfl⟩

/-! ### The regions -/

namespace Accepted

variable {startLba secCnt : UInt32} {pad : Nat → UInt8} {disk : Disk} {k : Nat}

/-- The regions follow one another without an overflow; `inode_table_sects` sectors lie between the
inode table and the root directory. -/
theorem lbas (h : Accepted startLba secCnt) :
    (startLba + 2).toNat = (startLba + 1).toNat + 1 ∧
    (startLba + 2 + blockBitmapSects secCnt).toNat =
      (startLba + 1).toNat + 1 + (blockBitmapSects secCnt).toNat ∧
    (startLba + 3 + blockBitmapSects secCnt).toNat =
      (startLba + 1).toNat + 2 + (blockBitmapSects secCnt).toNat ∧
    (startLba + 1219 + blockBitmapSects secCnt).toNat =
      (startLba + 1).toNat + 1218 + (blockBitmapSects secCnt).toNat := by
  have hsects : (blockBitmapSects secCnt).toNat ≤ 2 ^ 20 := by
    rw [blockBitmapSects, toNat_divRoundUp]
    omega
  have hsuper : (startLba + 1).toNat ≤ maxLba := h.superLba
  have hlt := startLba.toNat_lt
  simp only [UInt32.toNat_add, UInt32.reduceToNat, maxLba] at hsuper ⊢
  omega

theorem blockBitmapSects_pos (h : Accepted startLba secCnt) :
    0 < (blockBitmapSects secCnt).toNat := h.blockBitmapLba.1

theorem inodeTable_inside (h : Accepted startLba secCnt) :
    (startLba + 3 + blockBitmapSects secCnt).toNat + 608 ≤ (startLba + secCnt).toNat := by
  obtain ⟨bitmap₀, hsec, hpos, hround, hsects⟩ :=
    OriginOS.blockBitmapSects_pos h.blockBitmapSects_pos
  obtain ⟨hblock, -, htable, -⟩ := h.lbas
  have hsuper := h.superLba
  have hbound := h.blockBitmapLba.2
  have hlt := startLba.toNat_lt
  rw [hblock] at hbound
  rw [htable]
  simp only [UInt32.toNat_add, UInt32.reduceToNat, maxLba] at hsuper hbound ⊢
  have hsmall : (blockBitmapSects secCnt).toNat ≤ 2 ^ 18 := by omega
  have hround' : (blockBitmapSects secCnt).toNat ≤ bitmap₀ := by omega
  have hcnt : secCnt.toNat < 2 ^ 31 := by omega
  generalize (blockBitmapSects secCnt).toNat = sects at hsmall hround'
  by_cases hlast : startLba.toNat + 1 = 2 ^ 32
  · omega
  · omega

theorem formatted_superBlock (h : Accepted startLba secCnt) (hk : k < 512) :
    formatted startLba secCnt pad disk (512 * (startLba + 1).toNat + k) =
      storeWords pad 0 (superBlock startLba secCnt).words k := by
  obtain ⟨hblock, hinode, htable, hroot⟩ := h.lbas
  simp only [formatted, superBlock_blockBitmapLba, superBlock_inodeBitmapLba,
    superBlock_inodeTableLba, superBlock_dataStartLba, superBlock_blockBitmapSects]
  rw [writeSectors_of_not (by omega), writeSectors_of_not (by omega),
    writeSectors_of_not (by omega), writeSectors_of_not (by omega), writeSectors_apply (by omega)]

theorem formatted_blockBitmap (h : Accepted startLba secCnt)
    (hk : k < 512 * (blockBitmapSects secCnt).toNat) :
    formatted startLba secCnt pad disk (512 * (startLba + 2).toNat + k) =
      blockBitmapBuf (blockBitmapBitLen secCnt) (fun _ => 0) k := by
  obtain ⟨hblock, hinode, htable, hroot⟩ := h.lbas
  simp only [formatted, superBlock_blockBitmapLba, superBlock_inodeBitmapLba,
    superBlock_inodeTableLba, superBlock_dataStartLba, superBlock_blockBitmapSects]
  rw [writeSectors_of_not (by omega), writeSectors_of_not (by omega),
    writeSectors_of_not (by omega), writeSectors_apply (by omega)]

theorem formatted_inodeBitmap (h : Accepted startLba secCnt) (hk : k < 512) :
    formatted startLba secCnt pad disk
      (512 * (startLba + 2 + blockBitmapSects secCnt).toNat + k) = inodeBitmapBuf k := by
  obtain ⟨hblock, hinode, htable, hroot⟩ := h.lbas
  simp only [formatted, superBlock_blockBitmapLba, superBlock_inodeBitmapLba,
    superBlock_inodeTableLba, superBlock_dataStartLba, superBlock_blockBitmapSects]
  rw [writeSectors_of_not (by omega), writeSectors_of_not (by omega), writeSectors_apply (by omega)]

theorem formatted_inodeTable (h : Accepted startLba secCnt) (hk : k < 512 * 608) :
    formatted startLba secCnt pad disk
      (512 * (startLba + 3 + blockBitmapSects secCnt).toNat + k) =
      rootInodeBuf (superBlock startLba secCnt) (fun _ => 0) k := by
  obtain ⟨hblock, hinode, htable, hroot⟩ := h.lbas
  simp only [formatted, superBlock_blockBitmapLba, superBlock_inodeBitmapLba,
    superBlock_inodeTableLba, superBlock_dataStartLba, superBlock_blockBitmapSects]
  rw [writeSectors_of_not (by omega), writeSectors_apply (by omega)]

theorem formatted_root (hk : k < 512) : formatted startLba secCnt pad disk
    (512 * (startLba + 1219 + blockBitmapSects secCnt).toNat + k) = rootDirBuf k := by
  simp only [formatted, superBlock_dataStartLba]
  rw [writeSectors_apply (by omega)]

theorem formatted_of_not (h : Accepted startLba secCnt) {a : Nat}
    (hregions : a < 512 * (startLba + 1).toNat ∨
      512 * ((startLba + 1).toNat + 610 + (blockBitmapSects secCnt).toNat) ≤ a)
    (hroot : a < 512 * (startLba + 1219 + blockBitmapSects secCnt).toNat ∨
      512 * ((startLba + 1219 + blockBitmapSects secCnt).toNat + 1) ≤ a) :
    formatted startLba secCnt pad disk a = disk a := by
  obtain ⟨hblock, hinode, htable, -⟩ := h.lbas
  simp only [formatted, superBlock_blockBitmapLba, superBlock_inodeBitmapLba,
    superBlock_inodeTableLba, superBlock_dataStartLba, superBlock_blockBitmapSects]
  rw [writeSectors_of_not hroot, writeSectors_of_not (by omega), writeSectors_of_not (by omega),
    writeSectors_of_not (by omega), writeSectors_of_not (by omega)]

/-- The words of the inode table: the root directory's inode has two entries and one block, and the
rest is cleared. -/
theorem wordAt_inodeTable (h : Accepted startLba secCnt) {j : Nat} (hj : 4 * j < 512 * 608) :
    wordAt (formatted startLba secCnt pad disk)
      (512 * (startLba + 3 + blockBitmapSects secCnt).toNat + 4 * j) =
      if j = 4 then (superBlock startLba secCnt).dataStartLba
      else if j = 1 then (superBlock startLba secCnt).dirEntrySize * 2 else 0 := by
  have hshift : wordAt (formatted startLba secCnt pad disk)
      (512 * (startLba + 3 + blockBitmapSects secCnt).toNat + 4 * j) =
      wordAt (rootInodeBuf (superBlock startLba secCnt) fun _ => 0) (4 * j) := by
    refine wordAt_congr_shift fun k hk => ?_
    rw [Nat.add_assoc]
    exact h.formatted_inodeTable (by omega)
  rw [hshift, rootInodeBuf]
  by_cases h4 : j = 4
  · rw [if_pos h4, h4]
    exact wordAt_store32_self _
  rw [if_neg h4, wordAt_store32_of_ne (by omega) (by omega) (by omega)]
  by_cases h1 : j = 1
  · rw [if_pos h1, h1, wordAt_store32_of_ne (by omega) (by omega) (by omega)]
    exact wordAt_store32_self _
  rw [if_neg h1]
  by_cases h0 : j = 0
  · rw [h0]
    exact wordAt_store32_self (w := 0)
  rw [wordAt_store32_of_ne (by omega) (by omega) (by omega),
    wordAt_store32_of_ne (by omega) (by omega) (by omega)]
  rfl

end Accepted

end OriginOS
