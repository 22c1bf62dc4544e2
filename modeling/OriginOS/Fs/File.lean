import OriginOS.Fs.Mount
import OriginOS.Lib.System

/-! `inode_bitmap_alloc`, `block_bitmap_alloc` and `bitmap_sync` of `fs/file.c`. An `int32_t` is
kept as the `UInt32` with the same bits, and -1 is `0xffffffff`.

`bitmap_sync` takes the remainder of the bit number, a number of bits, as the number of bytes at
which the sector starts in memory. -/

namespace OriginOS

open Lib

inductive BitmapType where
  | inodeBitmap
  | blockBitmap
deriving DecidableEq, Repr

def inodeBitmapAlloc (part : Partition) : Except Panic (UInt32 × Partition) := do
  let bitIdx ← bitmapScan false part.inodeBitmap 1
  if bitIdx = -1 then pure (0xffffffff, part)
  else do
    let inodeBitmap ← bitmapSet false part.inodeBitmap bitIdx.toNat 1
    pure (.ofNat bitIdx.toNat, { part with inodeBitmap })

def blockBitmapAlloc (part : Partition) : Except Panic (UInt32 × Partition) := do
  let bitIdx ← bitmapScan false part.blockBitmap 1
  if bitIdx = -1 then pure (0xffffffff, part)
  else do
    let blockBitmap ← bitmapSet false part.blockBitmap bitIdx.toNat 1
    pure (part.sb.dataStartLba + .ofNat bitIdx.toNat, { part with blockBitmap })

/-- `bitmap_sync`: the disk of the partition afterwards. -/
def bitmapSync (part : Partition) (bitIdx : UInt32) (btmp : BitmapType) (disk : Disk) :
    Except Panic Disk :=
  let offSec := bitIdx / 4096
  let offSize := bitIdx % 4096
  match btmp with
  | .inodeBitmap => ideWrite disk (part.sb.inodeBitmapLba + offSec).toNat
      (fun k => part.inodeBitmap.bits (offSize.toNat + k)) 1
  | .blockBitmap => ideWrite disk (part.sb.blockBitmapLba + offSec).toNat
      (fun k => part.blockBitmap.bits (offSize.toNat + k)) 1

/-! ### The bitmaps of a partition -/

namespace Partition

def bitmap (part : Partition) : BitmapType → Bitmap
  | .inodeBitmap => part.inodeBitmap
  | .blockBitmap => part.blockBitmap

def bitmapLba (part : Partition) : BitmapType → UInt32
  | .inodeBitmap => part.sb.inodeBitmapLba
  | .blockBitmap => part.sb.blockBitmapLba

def bitmapSects (part : Partition) : BitmapType → UInt32
  | .inodeBitmap => part.sb.inodeBitmapSects
  | .blockBitmap => part.sb.blockBitmapSects

/-- The partition after bit `i` of a bitmap has been set. -/
def take (part : Partition) (i : Nat) : BitmapType → Partition
  | .inodeBitmap => { part with inodeBitmap := part.inodeBitmap.put i true }
  | .blockBitmap => { part with blockBitmap := part.blockBitmap.put i true }

end Partition

/-- The bitmaps of a mounted partition: they have whole sectors, their bits can be numbered by an
`int32_t`, and their sectors on the disk do not overlap. -/
structure BitmapsFit (part : Partition) : Prop where
  len : ∀ btmp, (part.bitmap btmp).btmpBytesLen = 512 * (part.bitmapSects btmp).toNat
  bits : ∀ btmp, 8 * (part.bitmap btmp).btmpBytesLen < 2 ^ 31
  lba : ∀ btmp, (part.bitmapLba btmp).toNat + (part.bitmapSects btmp).toNat ≤ 2 ^ 31
  data : part.sb.dataStartLba.toNat < 2 ^ 31
  apart : (part.bitmapLba .blockBitmap).toNat + (part.bitmapSects .blockBitmap).toNat ≤
      (part.bitmapLba .inodeBitmap).toNat ∨
    (part.bitmapLba .inodeBitmap).toNat + (part.bitmapSects .inodeBitmap).toNat ≤
      (part.bitmapLba .blockBitmap).toNat

/-- The bitmaps on the disk are those in memory. -/
def BitmapsAgree (part : Partition) (disk : Disk) : Prop :=
  ∀ btmp, ∀ k < (part.bitmap btmp).btmpBytesLen,
    disk (512 * (part.bitmapLba btmp).toNat + k) = (part.bitmap btmp).bits k

section Alloc

variable {part part' : Partition} {r : UInt32}

theorem inodeBitmapAlloc_eq_ok : inodeBitmapAlloc part = .ok (r, part') ↔
    ∃ i, part.inodeBitmap.FirstClear i ∧ r = .ofNat i ∧ part' = part.take i .inodeBitmap := by
  simp only [inodeBitmapAlloc, bind_eq_ok, bitmapScan_one_eq_ok]
  constructor
  · rintro ⟨-, ⟨i, rfl, hi⟩, h⟩
    rw [if_neg (by omega), Int.toNat_natCast, bitmapSet_one, ok_bind] at h
    obtain ⟨rfl, rfl⟩ := Prod.mk.inj (Except.ok.inj h)
    exact ⟨i, hi, rfl, rfl⟩
  · rintro ⟨i, hi, rfl, rfl⟩
    refine ⟨_, ⟨i, rfl, hi⟩, ?_⟩
    rw [if_neg (by omega), Int.toNat_natCast, bitmapSet_one]
    rfl

theorem blockBitmapAlloc_eq_ok : blockBitmapAlloc part = .ok (r, part') ↔
    ∃ i, part.blockBitmap.FirstClear i ∧ r = part.sb.dataStartLba + .ofNat i ∧
      part' = part.take i .blockBitmap := by
  simp only [blockBitmapAlloc, bind_eq_ok, bitmapScan_one_eq_ok]
  constructor
  · rintro ⟨-, ⟨i, rfl, hi⟩, h⟩
    rw [if_neg (by omega), Int.toNat_natCast, bitmapSet_one, ok_bind] at h
    obtain ⟨rfl, rfl⟩ := Prod.mk.inj (Except.ok.inj h)
    exact ⟨i, hi, rfl, rfl⟩
  · rintro ⟨i, hi, rfl, rfl⟩
    refine ⟨_, ⟨i, rfl, hi⟩, ?_⟩
    rw [if_neg (by omega), Int.toNat_natCast, bitmapSet_one]
    rfl

theorem bitmapSync_eq_ok {bitIdx : UInt32} {btmp : BitmapType} {disk disk' : Disk} :
    bitmapSync part bitIdx btmp disk = .ok disk' ↔
      (part.bitmapLba btmp + bitIdx / 4096).toNat ≤ maxLba ∧
      disk' = writeSectors disk (fun k => (part.bitmap btmp).bits (bitIdx.toNat % 4096 + k))
        (part.bitmapLba btmp + bitIdx / 4096).toNat 1 := by
  have hmod : (bitIdx % 4096).toNat = bitIdx.toNat % 4096 := by rw [UInt32.toNat_mod]; rfl
  have hone : ∀ lba, Transferable lba 1 ↔ lba ≤ maxLba := fun lba => ⟨fun h => h.2, .one⟩
  cases btmp <;> simp only [bitmapSync, ideWrite_eq_ok, hmod, hone] <;> rfl

end Alloc

/-! ### Pairs of an allocation and a synchronisation -/

structure MountState where
  part : Partition
  disk : Disk

/-- A bit is allocated, and `bitmap_sync` is called for its number, as by `sync_dir_entry`. -/
def allocSync (btmp : BitmapType) (s : MountState) : Except Panic MountState :=
  match btmp with
  | .inodeBitmap => do
    let (bitIdx, part) ← inodeBitmapAlloc s.part
    if bitIdx = 0xffffffff then pure ⟨part, s.disk⟩
    else do
      let disk ← bitmapSync part bitIdx .inodeBitmap s.disk
      pure ⟨part, disk⟩
  | .blockBitmap => do
    let (blockLba, part) ← blockBitmapAlloc s.part
    if blockLba = 0xffffffff then pure ⟨part, s.disk⟩
    else do
      let disk ← bitmapSync part (blockLba - part.sb.dataStartLba) .blockBitmap s.disk
      pure ⟨part, disk⟩

/-- Sequences of such pairs on a mounted partition. -/
def syncSystem : System MountState BitmapType Panic where
  init s := BitmapsFit s.part ∧ BitmapsAgree s.part s.disk
  guard _ _ := True
  exec := allocSync

/-- The sector in memory that `bitmap_sync` copies is the one that holds the first clear bit, once
that bit has been set. -/
def SectorMatches (btmp : Bitmap) : Prop :=
  ∀ i, btmp.FirstClear i → ∀ k < 512,
    (btmp.put i true).bits (i % 4096 + k) = (btmp.put i true).bits (512 * (i / 4096) + k)

section Steps

variable {s t : MountState} {btmp : BitmapType}

@[simp] theorem Partition.bitmapLba_take (part : Partition) (i : Nat) (btmp btmp' : BitmapType) :
    (part.take i btmp).bitmapLba btmp' = part.bitmapLba btmp' := by
  cases btmp <;> cases btmp' <;> rfl

@[simp] theorem Partition.bitmapSects_take (part : Partition) (i : Nat) (btmp btmp' : BitmapType) :
    (part.take i btmp).bitmapSects btmp' = part.bitmapSects btmp' := by
  cases btmp <;> cases btmp' <;> rfl

@[simp] theorem Partition.sb_take (part : Partition) (i : Nat) (btmp : BitmapType) :
    (part.take i btmp).sb = part.sb := by
  cases btmp <;> rfl

theorem Partition.bitmap_take (part : Partition) (i : Nat) (btmp btmp' : BitmapType) :
    (part.take i btmp).bitmap btmp' =
      if btmp' = btmp then (part.bitmap btmp').put i true else part.bitmap btmp' := by
  cases btmp <;> cases btmp' <;> rfl

theorem BitmapsFit.take {part : Partition} (h : BitmapsFit part) (i : Nat) (btmp : BitmapType) :
    BitmapsFit (part.take i btmp) := by
  have hlen : ∀ btmp', ((part.take i btmp).bitmap btmp').btmpBytesLen =
      (part.bitmap btmp').btmpBytesLen := by
    intro btmp'
    rw [Partition.bitmap_take]
    split <;> rfl
  constructor <;> simp only [hlen, Partition.bitmapLba_take, Partition.bitmapSects_take,
    Partition.sb_take]
  · exact h.len
  · exact h.bits
  · exact h.lba
  · exact h.data
  · exact h.apart

theorem BitmapsFit.toNat_ofNat {part : Partition} (h : BitmapsFit part)
    (btmp : BitmapType) {i : Nat}
    (hi : (part.bitmap btmp).FirstClear i) : (UInt32.ofNat i).toNat = i ∧
      (part.bitmapLba btmp + UInt32.ofNat i / 4096).toNat =
        (part.bitmapLba btmp).toNat + i / 4096 := by
  have hlt := hi.lt
  have hlen := h.len btmp
  have hbits := h.bits btmp
  have hlba := h.lba btmp
  have hnat : (UInt32.ofNat i).toNat = i := UInt32.toNat_ofNat_of_lt' (show i < 2 ^ 32 by omega)
  refine ⟨hnat, ?_⟩
  rw [UInt32.toNat_add, UInt32.toNat_div, hnat, show (4096 : UInt32).toNat = 4096 from rfl]
  omega

theorem BitmapsFit.ofNat_ne {part : Partition} (h : BitmapsFit part) {i : Nat}
    (hi : part.inodeBitmap.FirstClear i) : UInt32.ofNat i ≠ 0xffffffff := by
  intro heq
  have hval : i = 0xffffffff :=
    (h.toNat_ofNat .inodeBitmap hi).1.symm.trans (congrArg UInt32.toNat heq)
  have hlt := hi.lt
  have hbits : 8 * part.inodeBitmap.btmpBytesLen < 2 ^ 31 := h.bits .inodeBitmap
  omega

theorem BitmapsFit.dataStartLba_add {part : Partition} (h : BitmapsFit part) {i : Nat}
    (hi : part.blockBitmap.FirstClear i) :
    (part.sb.dataStartLba + UInt32.ofNat i).toNat = part.sb.dataStartLba.toNat + i ∧
    part.sb.dataStartLba + UInt32.ofNat i ≠ 0xffffffff ∧
    part.sb.dataStartLba + UInt32.ofNat i - part.sb.dataStartLba = UInt32.ofNat i := by
  have hlt := hi.lt
  have hbits : 8 * part.blockBitmap.btmpBytesLen < 2 ^ 31 := h.bits .blockBitmap
  have hdata := h.data
  have hval : (part.sb.dataStartLba + UInt32.ofNat i).toNat = part.sb.dataStartLba.toNat + i := by
    rw [UInt32.toNat_add, (h.toNat_ofNat .blockBitmap hi).1]
    omega
  refine ⟨hval, fun heq => ?_, by grind⟩
  rw [heq, show (0xffffffff : UInt32).toNat = 0xffffffff from rfl] at hval
  omega

theorem BitmapsFit.allocSync_eq_ok (h : BitmapsFit s.part) : allocSync btmp s = .ok t ↔
    ∃ i, (s.part.bitmap btmp).FirstClear i ∧
      (s.part.bitmapLba btmp).toNat + i / 4096 ≤ maxLba ∧
      t = ⟨s.part.take i btmp, writeSectors s.disk
        (fun k => ((s.part.bitmap btmp).put i true).bits (i % 4096 + k))
        ((s.part.bitmapLba btmp).toNat + i / 4096) 1⟩ := by
  -- the allocation has found bit `i`, and `bitmap_sync` is called for it
  have hsync : ∀ i, (s.part.bitmap btmp).FirstClear i →
      ((do let disk ← bitmapSync (s.part.take i btmp) (.ofNat i) btmp s.disk
           pure ⟨s.part.take i btmp, disk⟩ : Except Panic MountState) = .ok t ↔
        (s.part.bitmapLba btmp).toNat + i / 4096 ≤ maxLba ∧
        t = ⟨s.part.take i btmp, writeSectors s.disk
          (fun k => ((s.part.bitmap btmp).put i true).bits (i % 4096 + k))
          ((s.part.bitmapLba btmp).toNat + i / 4096) 1⟩) := by
    intro i hi
    obtain ⟨hnat, hlba⟩ := h.toNat_ofNat btmp hi
    simp only [bind_eq_ok, bitmapSync_eq_ok, Partition.bitmapLba_take, hlba, hnat,
      Partition.bitmap_take, if_true]
    constructor
    · rintro ⟨-, ⟨hmax, rfl⟩, hpure⟩
      exact ⟨hmax, (Except.ok.inj hpure).symm⟩
    · rintro ⟨hmax, rfl⟩
      exact ⟨_, ⟨hmax, rfl⟩, rfl⟩
  cases btmp with
  | inodeBitmap =>
    simp only [allocSync, bind_eq_ok, Prod.exists, inodeBitmapAlloc_eq_ok]
    constructor
    · rintro ⟨-, -, ⟨i, hi, rfl, rfl⟩, hrest⟩
      rw [if_neg (h.ofNat_ne hi)] at hrest
      exact ⟨i, hi, (hsync i hi).mp hrest⟩
    · rintro ⟨i, hi, hrest⟩
      refine ⟨_, _, ⟨i, hi, rfl, rfl⟩, ?_⟩
      rw [if_neg (h.ofNat_ne hi)]
      exact (hsync i hi).mpr hrest
  | blockBitmap =>
    simp only [allocSync, bind_eq_ok, Prod.exists, blockBitmapAlloc_eq_ok]
    constructor
    · rintro ⟨-, -, ⟨i, hi, rfl, rfl⟩, hrest⟩
      obtain ⟨-, hne, hsub⟩ := h.dataStartLba_add hi
      rw [if_neg hne, Partition.sb_take, hsub] at hrest
      exact ⟨i, hi, (hsync i hi).mp hrest⟩
    · rintro ⟨i, hi, hrest⟩
      obtain ⟨-, hne, hsub⟩ := h.dataStartLba_add hi
      refine ⟨_, _, ⟨i, hi, rfl, rfl⟩, ?_⟩
      rw [if_neg hne, Partition.sb_take, hsub]
      exact (hsync i hi).mpr hrest

theorem BitmapsFit.apart_of_ne {part : Partition} (h : BitmapsFit part) {btmp btmp' : BitmapType}
    (hne : btmp' ≠ btmp) :
    (part.bitmapLba btmp).toNat + (part.bitmapSects btmp).toNat ≤ (part.bitmapLba btmp').toNat ∨
    (part.bitmapLba btmp').toNat + (part.bitmapSects btmp').toNat ≤
      (part.bitmapLba btmp).toNat := by
  have hapart := h.apart
  cases btmp <;> cases btmp' <;> first | exact absurd rfl hne | omega

theorem BitmapsFit.agree_iff {part : Partition} {disk : Disk} (h : BitmapsFit part)
    (hagree : BitmapsAgree part disk) {i : Nat} (hi : (part.bitmap btmp).FirstClear i) :
    BitmapsAgree (part.take i btmp) (writeSectors disk
      (fun k => ((part.bitmap btmp).put i true).bits (i % 4096 + k))
      ((part.bitmapLba btmp).toNat + i / 4096) 1) ↔ SectorMatches (part.bitmap btmp) := by
  have hlt := hi.lt
  have hlen := h.len btmp
  constructor
  · intro hafter j hj k hk
    obtain rfl := hi.unique hj
    have hbyte := hafter btmp (512 * (i / 4096) + k)
    rw [Partition.bitmap_take, if_pos rfl, Partition.bitmapLba_take,
      Bitmap.put_len, ← Nat.add_assoc,
      ← Nat.mul_add, writeSectors_apply (by omega)] at hbyte
    exact hbyte (by omega)
  · intro hmatch btmp' k hk
    rw [Partition.bitmap_take] at hk ⊢
    rw [Partition.bitmapLba_take]
    by_cases hkind : btmp' = btmp
    · subst hkind
      rw [if_pos rfl] at hk ⊢
      rw [Bitmap.put_len] at hk
      by_cases hsec : k / 512 = i / 4096
      · have hat : 512 * (part.bitmapLba btmp').toNat + k =
            512 * ((part.bitmapLba btmp').toNat + i / 4096) + k % 512 := by omega
        rw [hat, writeSectors_apply (by omega), hmatch i hi _ (Nat.mod_lt _ (by decide))]
        congr 1
        omega
      · rw [writeSectors_of_not (by omega), hagree btmp' k hk]
        exact (Function.update_of_ne (by omega) ..).symm
    · rw [if_neg hkind] at hk ⊢
      have hapart := h.apart_of_ne hkind
      have hlen' := h.len btmp'
      rw [writeSectors_of_not (by omega)]
      exact hagree btmp' k hk

theorem BitmapsFit.step (h : BitmapsFit s.part) (hs : syncSystem.Step s btmp t) :
    BitmapsFit t.part ∧ (BitmapsAgree s.part s.disk →
      (BitmapsAgree t.part t.disk ↔ SectorMatches (s.part.bitmap btmp))) := by
  obtain ⟨i, hi, -, rfl⟩ := h.allocSync_eq_ok.mp hs.2
  exact ⟨h.take i btmp, fun hagree => h.agree_iff hagree hi⟩

theorem BitmapsFit.step_ok (h : BitmapsFit s.part) (btmp : BitmapType) {i : Nat}
    (hi : (s.part.bitmap btmp).FirstClear i)
    (hmax : (s.part.bitmapLba btmp).toNat + i / 4096 ≤ maxLba) :
    syncSystem.Step s btmp ⟨s.part.take i btmp, writeSectors s.disk
      (fun k => ((s.part.bitmap btmp).put i true).bits (i % 4096 + k))
      ((s.part.bitmapLba btmp).toNat + i / 4096) 1⟩ :=
  ⟨trivial, h.allocSync_eq_ok.mpr ⟨i, hi, hmax, rfl⟩⟩

end Steps

/-- The bitmaps agree in every state of a run exactly when each pair of the run copies the right
sector. -/
theorem agree_states_iff {tr : List (MountState × BitmapType)} {s : MountState}
    (run : syncSystem.Run tr s) : BitmapsFit s.part ∧
      ((∀ u ∈ System.states tr s, BitmapsAgree u.part u.disk) ↔
        ∀ p ∈ tr, SectorMatches (p.1.part.bitmap p.2)) := by
  induction run with
  | start hinit => exact ⟨hinit.1, by simp [System.states, hinit.2]⟩
  | @next tr s t a _ hs ih =>
    obtain ⟨hfit, hiff⟩ := ih
    obtain ⟨hfit', hstep⟩ := hfit.step hs
    refine ⟨hfit', ?_⟩
    have hlast : s ∈ System.states tr s := List.mem_cons_self
    simp only [System.states, List.map_cons, List.forall_mem_cons] at hiff hlast ⊢
    constructor
    · rintro ⟨ht, hs, hrest⟩
      exact ⟨(hstep hs).mp ht, hiff.mp ⟨hs, hrest⟩⟩
    · rintro ⟨hmatch, hrest⟩
      obtain ⟨hs, hall⟩ := hiff.mpr hrest
      exact ⟨(hstep hs).mpr hmatch, hs, hall⟩

/-- After every pair the bitmaps on the disk are those in memory exactly when every pair copies the
right sector; and `bitmap_sync` changes no other sector than that of the bit. -/
theorem bitmaps_follow_iff {tr : List (MountState × BitmapType)} {s : MountState}
    (run : syncSystem.Run tr s) :
    ((∀ u ∈ System.states tr s, BitmapsAgree u.part u.disk) ↔
      ∀ p ∈ tr, SectorMatches (p.1.part.bitmap p.2)) ∧
    ∀ (part : Partition) (bitIdx : UInt32) (btmp : BitmapType) (disk disk' : Disk),
      bitmapSync part bitIdx btmp disk = .ok disk' →
      ∀ x, x ≠ (part.bitmapLba btmp + bitIdx / 4096).toNat → SameSector disk disk' x := by
  refine ⟨(agree_states_iff run).2, fun part bitIdx btmp disk disk' hsync x hx => ?_⟩
  obtain ⟨-, rfl⟩ := bitmapSync_eq_ok.mp hsync
  exact sameSector_writeSectors (by omega)

/-! ### A partition that has just been mounted -/

section Mounted

variable {part : Partition} {pad : Nat → UInt8} {disk : Disk} {blockBits inodeBits : HeapBlock}

/-- The bitmaps of a partition that has been formatted and mounted agree with the disk. -/
theorem init_mounted (h : Accepted part.startLba part.secCnt) :
    syncSystem.init ⟨mounted part blockBits inodeBits
    (formatted part.startLba part.secCnt pad disk),
      formatted part.startLba part.secCnt pad disk⟩ := by
  have hfound := @Found.mounted part pad disk blockBits inodeBits h
  obtain ⟨hblock, hinode, -, -⟩ := h.lbas
  have hbound := h.blockBitmapLba.2
  have hsuper := h.superLba
  have hroot := h.rootLba
  simp only [maxLba] at hbound hsuper hroot
  refine ⟨⟨?_, ?_, ?_, ?_, ?_⟩, ?_⟩
  · rintro ⟨⟩
    · exact hfound.inodeBitmapLen
    · exact hfound.blockBitmapLen
  · rintro ⟨⟩
    · exact hfound.inodeBitmapLen ▸ (by decide)
    · simp only [Partition.bitmap, hfound.blockBitmapLen]
      omega
  · rintro ⟨⟩
    · simp only [Partition.bitmapLba, Partition.bitmapSects, mounted, superBlock_inodeBitmapLba,
        superBlock_inodeBitmapSects, UInt32.toNat_one]
      omega
    · simp only [Partition.bitmapLba, Partition.bitmapSects, mounted, superBlock_blockBitmapLba,
        superBlock_blockBitmapSects]
      omega
  · simp only [mounted, superBlock_dataStartLba]
    omega
  · left
    simp only [Partition.bitmapLba, Partition.bitmapSects, mounted, superBlock_inodeBitmapLba,
      superBlock_blockBitmapLba, superBlock_blockBitmapSects]
    omega
  · rintro ⟨⟩ k hk
    · have hlt : k < 512 := hfound.inodeBitmapLen ▸ hk
      simp only [Partition.bitmap, Partition.bitmapLba]
      rw [hfound.inodeBitmap k hlt, hfound.sb, superBlock_inodeBitmapLba,
        h.formatted_inodeBitmap hlt]
    · have hlt : k < 512 * (blockBitmapSects part.secCnt).toNat := hfound.blockBitmapLen ▸ hk
      simp only [Partition.bitmap, Partition.bitmapLba]
      rw [hfound.blockBitmap k hk, hfound.sb, superBlock_blockBitmapLba,
        h.formatted_blockBitmap hlt]

theorem firstClear_mounted (h : Accepted part.startLba part.secCnt) :
    (mounted part blockBits inodeBits
      (formatted part.startLba part.secCnt pad disk)).inodeBitmap.FirstClear 1 := by
  have hfound := @Found.mounted part pad disk blockBits inodeBits h
  have hbyte := hfound.inodeBitmap 0 (by decide)
  constructor
  · rw [hfound.inodeBitmapLen]
    decide
  · rw [Bitmap.bit, hbyte]
    rfl
  · intro j hj
    obtain rfl : j = 0 := by omega
    rw [Bitmap.bit, hbyte]
    rfl

theorem step_mounted (h : Accepted part.startLba part.secCnt) :
    ∃ t, syncSystem.Step ⟨mounted part blockBits inodeBits
        (formatted part.startLba part.secCnt pad disk),
        formatted part.startLba part.secCnt pad disk⟩
      .inodeBitmap t ∧ ¬ BitmapsAgree t.part t.disk := by
  obtain ⟨hfit, hagree⟩ := @init_mounted part pad disk blockBits inodeBits h
  have hfirst := @firstClear_mounted part pad disk blockBits inodeBits h
  have hfound := @Found.mounted part pad disk blockBits inodeBits h
  refine ⟨_, hfit.step_ok .inodeBitmap hfirst h.inodeBitmapLba, fun hafter => ?_⟩
  have hmatch : SectorMatches (mounted part blockBits inodeBits
      (formatted part.startLba part.secCnt pad disk)).inodeBitmap :=
    (@BitmapsFit.agree_iff .inodeBitmap _ _ hfit hagree 1 hfirst).mp hafter
  replace hmatch := hmatch 1 hfirst 0 (by decide)
  have h₁ := hfound.inodeBitmap 1 (by decide)
  have h₀ := hfound.inodeBitmap 0 (by decide)
  simp only [Bitmap.put, Function.update_apply, h₁, h₀] at hmatch
  revert hmatch
  decide

end Mounted

/-- A partition in which nothing is in use, on a disk that is all zero. -/
def blankMount : MountState where
  part := { Partition.recorded "sdb1" 2048 20000 with
    sb := superBlock 2048 20000
    blockBitmap := ⟨512 * 5, 0, fun _ => 0⟩
    inodeBitmap := ⟨512, 0, fun _ => 0⟩ }
  disk := fun _ => 0

theorem blankMount_init : syncSystem.init blankMount := by
  refine ⟨⟨?_, ?_, ?_, ?_, ?_⟩, ?_⟩
  · rintro ⟨⟩ <;> decide
  · rintro ⟨⟩ <;> decide
  · rintro ⟨⟩ <;> decide
  · decide
  · decide
  · rintro ⟨⟩ k hk <;> rfl

theorem blankMount_firstClear : (blankMount.part.bitmap .blockBitmap).FirstClear 0 :=
  ⟨by decide, rfl, fun _ h => absurd h (Nat.not_lt_zero _)⟩

/-- The first block of a partition is allocated and marked on the disk. -/
theorem bitmaps_follow_iff_first : ∃ tr s, syncSystem.Run tr s ∧ tr ≠ [] ∧
    ∀ u ∈ System.states tr s, BitmapsAgree u.part u.disk := by
  have run := (System.Run.start blankMount_init).next
    (blankMount_init.1.step_ok .blockBitmap blankMount_firstClear (by decide))
  refine ⟨_, _, run, List.cons_ne_nil _ _, (bitmaps_follow_iff run).1.mpr ?_⟩
  simp only [List.forall_mem_cons, List.not_mem_nil, false_imp_iff, implies_true, and_true]
  intro i hi k hk
  obtain rfl := hi.unique blankMount_firstClear
  rfl

/-- After the first file of a partition that has just been formatted and mounted, the inode bitmap
on the disk is not the one in memory. -/
theorem bitmaps_follow_fails : ∃ s, syncSystem.Reachable s ∧ ¬ BitmapsAgree s.part s.disk := by
  have h : Accepted (Partition.recorded "sdb1" 2048 20000).startLba
    (Partition.recorded "sdb1" 2048 20000).secCnt := by decide
  have hinit := @init_mounted _ (fun _ => 0) (fun _ => 0) ⟨0, fun _ => 0⟩ ⟨0, fun _ => 0⟩ h
  obtain ⟨t, hstep, hnot⟩ :=
    @step_mounted _ (fun _ => 0) (fun _ => 0) ⟨0, fun _ => 0⟩ ⟨0, fun _ => 0⟩ h
  exact ⟨t, (System.Reachable.init hinit).next hstep, hnot⟩

end OriginOS
