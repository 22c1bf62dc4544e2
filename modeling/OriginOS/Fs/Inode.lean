import OriginOS.Fs.FormatSpec

/-! `inode_locate`, `inode_sync` and `inode_open` of `fs/inode.c`, called by one thread at a time.
-/

namespace OriginOS

open Lib

structure InodePosition where
  twoSec : Bool
  secLba : UInt32
  offSize : UInt32
deriving DecidableEq, Repr

def inodeLocate (part : Partition) (inodeNo : UInt32) : Except Panic InodePosition := do
  assert (inodeNo < 4096) ⟨"./fs/inode.c", 15, "inode_locate", "inode_no < 4096"⟩
  let offSize := inodeNo * 76
  let offSec := offSize / 512
  let offSizeInSec := offSize % 512
  pure ⟨512 - offSizeInSec < 76, part.sb.inodeTableLba + offSec, offSizeInSec⟩

/-- `pure_inode`: the fields of an inode that is in use are cleared. -/
def Inode.toPure (inode : Inode) : Inode :=
  { inode with iOpenCnts := 0, writeDeny := 0, tagPrev := 0, tagNext := 0 }

/-- `inode_sync`: the disk of the partition afterwards. `inode_no` is a `uint8_t`. -/
def inodeSync (part : Partition) (inode : Inode) (ioBuf : Nat → UInt8) (disk : Disk) :
    Except Panic Disk := do
  let inodeNo := inode.iNo.toUInt8
  let inodePos ← inodeLocate part inodeNo.toUInt32
  assert (inodePos.secLba ≤ part.startLba + part.secCnt)
    ⟨"./fs/inode.c", 40, "inode_sync", "inode_pos.sec_lba <= (part->start_lba + part->sec_cnt)"⟩
  let sects := if inodePos.twoSec then 2 else 1
  let inodeBuf ← ideRead disk inodePos.secLba.toNat ioBuf sects
  let inodeBuf := storeWords inodeBuf inodePos.offSize.toNat inode.toPure.words
  ideWrite disk inodePos.secLba.toNat inodeBuf sects

/-- The walk over `open_inodes`: the inode with the number is opened once more. -/
def openFound (inodeNo : UInt32) : List Inode → Option (Inode × List Inode)
  | [] => none
  | inodeFound :: rest =>
    if inodeFound.iNo = inodeNo then
      let inodeFound := { inodeFound with iOpenCnts := inodeFound.iOpenCnts + 1 }
      some (inodeFound, inodeFound :: rest)
    else (openFound inodeNo rest).map fun (i, rest) => (i, inodeFound :: rest)

/-- What `inode_open` reads from the disk, and the value that it gives to `i_open_cnts`. -/
def inodeRead (inodePos : InodePosition) (disk : Disk) : Except Panic Inode := do
  let inodeBuf ← ideRead disk inodePos.secLba.toNat (fun _ => 0) (if inodePos.twoSec then 2 else 1)
  pure { Inode.ofBytes inodeBuf inodePos.offSize.toNat with iOpenCnts := 1 }

/-- `inode_open`: the inode, and the partition afterwards. The links of an inode in `open_inodes`
are given by its place there. -/
def inodeOpen (part : Partition) (inodeNo : UInt32) (disk : Disk) :
    Except Panic (Inode × Partition) :=
  match openFound inodeNo part.openInodes with
  | some (inodeFound, openInodes) => pure (inodeFound, { part with openInodes })
  | none => do
    let inodePos ← inodeLocate part inodeNo
    let inodeFound ← inodeRead inodePos disk
    pure (inodeFound, { part with openInodes := inodeFound :: part.openInodes })

/-! ### Inodes in memory -/

namespace Inode

@[simp] theorem length_words (inode : Inode) : inode.words.length = 19 := by simp [words]

theorem ofBytes_storeWords (inode : Inode) (mem : Nat → UInt8) (a : Nat) :
    ofBytes (storeWords mem a inode.words) a = inode := by
  apply Inode.ext
  · exact wordAt_storeWords (i := 0) (by simp [words])
  · exact wordAt_storeWords (i := 1) (by simp [words])
  · exact wordAt_storeWords (i := 2) (by simp [words])
  · exact wordAt_storeWords (i := 3) (by simp [words])
  · refine Vector.ext fun k hk => ?_
    simp only [ofBytes, Vector.getElem_ofFn, Nat.add_assoc]
    rw [show 16 + 4 * k = 4 * (4 + k) by omega]
    refine wordAt_storeWords ?_
    rw [words, List.append_assoc, List.getElem?_append_right (by simp), List.getElem?_append_left]
    all_goals simp [hk]
  · exact wordAt_storeWords (i := 17) (by simp [words])
  · exact wordAt_storeWords (i := 18) (by simp [words])

theorem wordAt_of_words {mem : Nat → UInt8} {a i : Nat} {w : UInt32}
    (h : (ofBytes mem a).words[i]? = some w) : wordAt mem (a + 4 * i) = w := by
  have hwords : (ofBytes mem a).words = List.ofFn fun k : Fin 19 => wordAt mem (a + 4 * k) := by
    simp [words, ofBytes, List.ofFn_succ, Nat.add_assoc, Vector.toList]
  rw [hwords] at h
  simp only [List.getElem?_ofFn, Option.dite_none_right_eq_some, Option.some.injEq] at h
  obtain ⟨-, h⟩ := h
  exact h

theorem ofBytes_congr {mem mem' : Nat → UInt8} {a a' : Nat}
    (h : ∀ k, k < 76 → mem' (a' + k) = mem (a + k)) : ofBytes mem' a' = ofBytes mem a := by
  have hword := wordAt_congr_record h
  apply Inode.ext
  · exact hword 0 (by omega)
  · exact hword 4 (by omega)
  · exact hword 8 (by omega)
  · exact hword 12 (by omega)
  · refine Vector.ext fun k hk => ?_
    simp only [ofBytes, Vector.getElem_ofFn, Nat.add_assoc]
    exact hword _ (by omega)
  · exact hword 68 (by omega)
  · exact hword 72 (by omega)

end Inode

/-! ### What the functions do -/

/-- The byte of the disk at which an inode is stored. -/
def inodeSlot (part : Partition) (inodeNo : Nat) : Nat :=
  512 * part.sb.inodeTableLba.toNat + 76 * inodeNo

/-- The partition has been formatted and mounted: the layout is in `sb`. -/
structure LaidOut (part : Partition) : Prop where
  accepted : Accepted part.startLba part.secCnt
  sb : part.sb = superBlock part.startLba part.secCnt

section Spec

variable {part : Partition} {disk : Disk} {inodeNo : UInt32}

theorem LaidOut.inodeTable_le (h : LaidOut part) : part.sb.inodeTableLba.toNat + 608 ≤ maxLba := by
  obtain ⟨-, -, htable, hroot⟩ := h.accepted.lbas
  have hlast := h.accepted.rootLba
  rw [h.sb, superBlock_inodeTableLba]
  omega

theorem inodeLocate_ok (h : part.sb.inodeTableLba.toNat + 608 ≤ maxLba)
    (hno : inodeNo.toNat < 4096) :
    ∃ pos : InodePosition, inodeLocate part inodeNo = .ok pos ∧
      512 * pos.secLba.toNat + pos.offSize.toNat = inodeSlot part inodeNo.toNat ∧
      pos.secLba.toNat < part.sb.inodeTableLba.toNat + 608 ∧
      pos.offSize.toNat + 76 ≤ 512 * (if pos.twoSec then 2 else 1) := by
  have hlt : inodeNo < 4096 := UInt32.lt_iff_toNat_lt.mpr hno
  have hoff : (inodeNo * 76).toNat = 76 * inodeNo.toNat := by
    rw [UInt32.toNat_mul, show (76 : UInt32).toNat = 76 from rfl]
    omega
  have hsec : (inodeNo * 76 / 512).toNat = 76 * inodeNo.toNat / 512 := by
    rw [UInt32.toNat_div, hoff]; rfl
  have hin : (inodeNo * 76 % 512).toNat = 76 * inodeNo.toNat % 512 := by
    rw [UInt32.toNat_mod, hoff]; rfl
  have hlba : (part.sb.inodeTableLba + inodeNo * 76 / 512).toNat =
      part.sb.inodeTableLba.toNat + 76 * inodeNo.toNat / 512 := by
    rw [UInt32.toNat_add, hsec]
    simp only [maxLba] at h
    omega
  refine ⟨⟨512 - inodeNo * 76 % 512 < 76, part.sb.inodeTableLba + inodeNo * 76 / 512,
    inodeNo * 76 % 512⟩, ?_, ?_, ?_, ?_⟩
  · rw [inodeLocate, assert_of (decide_eq_true hlt)]
    rfl
  · rw [hlba, hin, inodeSlot]
    omega
  · rw [hlba]
    omega
  · have hroom : (512 - inodeNo * 76 % 512).toNat = 512 - 76 * inodeNo.toNat % 512 := by
      rw [UInt32.toNat_sub_of_le _ _ (UInt32.le_iff_toNat_le.mpr ?_), hin]
      · rfl
      · rw [hin, show (512 : UInt32).toNat = 512 from rfl]
        omega
    simp only [decide_eq_true_eq, UInt32.lt_iff_toNat_lt, hroom, hin, UInt32.reduceToNat]
    split <;> omega

theorem transferable_of_two {lba : Nat} {twoSec : Bool} (h : lba ≤ maxLba) :
    Transferable lba (if twoSec then 2 else 1) := by
  cases twoSec with
  | false => exact .one h
  | true => exact ⟨by decide, h⟩

theorem toNat_toUInt8_toUInt32 (n : UInt32) : n.toUInt8.toUInt32.toNat = n.toNat % 256 := by simp

theorem LaidOut.inodeSync_ok (h : LaidOut part) (inode : Inode) (ioBuf : Nat → UInt8) :
    inodeSync part inode ioBuf disk = .ok (storeWords disk
      (inodeSlot part (inode.iNo.toNat % 256)) inode.toPure.words) := by
  have hno := toNat_toUInt8_toUInt32 inode.iNo
  obtain ⟨pos, hpos, hslot, hsec, hroom⟩ := inodeLocate_ok h.inodeTable_le
    (show inode.iNo.toUInt8.toUInt32.toNat < 4096 by omega)
  have hmax : pos.secLba.toNat ≤ maxLba := by have := h.inodeTable_le; omega
  have hend : pos.secLba ≤ part.startLba + part.secCnt := by
    have hin := h.accepted.inodeTable_inside
    rw [h.sb, superBlock_inodeTableLba] at hsec
    exact UInt32.le_iff_toNat_le.mpr (by omega)
  rw [inodeSync]
  simp only [hpos, ok_bind, assert_of (decide_eq_true hend)]
  rw [(ideRead_eq_ok).mpr ⟨transferable_of_two hmax, rfl⟩, ok_bind, ideWrite_eq_ok]
  refine ⟨transferable_of_two hmax, ?_⟩
  rw [writeSectors_storeWords (by rw [Inode.length_words]; omega), hslot, hno]

theorem inodeRead_ok (h : part.sb.inodeTableLba.toNat + 608 ≤ maxLba) (hno : inodeNo.toNat < 4096) :
    ∃ pos, inodeLocate part inodeNo = .ok pos ∧ inodeRead pos disk =
      .ok { Inode.ofBytes disk (inodeSlot part inodeNo.toNat) with iOpenCnts := 1 } := by
  obtain ⟨pos, hpos, hslot, hsec, hroom⟩ := inodeLocate_ok h hno
  have hread : Inode.ofBytes (readSectors disk (fun _ => 0) pos.secLba.toNat
      (if pos.twoSec then 2 else 1)) pos.offSize.toNat =
      Inode.ofBytes disk (inodeSlot part inodeNo.toNat) := by
    refine Inode.ofBytes_congr fun k hk => ?_
    rw [readSectors_apply (by omega), ← hslot, Nat.add_assoc]
  refine ⟨pos, hpos, ?_⟩
  rw [inodeRead, ideRead_eq_ok.mpr ⟨transferable_of_two (by omega), rfl⟩, ok_bind, hread]
  rfl

theorem inodeOpen_ok (h : part.sb.inodeTableLba.toNat + 608 ≤ maxLba) (hno : inodeNo.toNat < 4096)
    (hclosed : openFound inodeNo part.openInodes = none) :
    inodeOpen part inodeNo disk =
      let inode := { Inode.ofBytes disk (inodeSlot part inodeNo.toNat) with iOpenCnts := 1 }
      .ok (inode, { part with openInodes := inode :: part.openInodes }) := by
  obtain ⟨pos, hpos, hread⟩ := @inodeRead_ok part disk inodeNo h hno
  rw [inodeOpen, hclosed]
  simp only [hpos, ok_bind, hread]
  rfl

end Spec

/-! ### Written inodes are read back -/

/-- After `inode_sync` the inode can be opened from the disk, and nothing else has changed. -/
structure SyncRoundTrip (part : Partition) (inode : Inode) (disk disk' : Disk) : Prop where
  reopened : ∀ openInodes, openFound inode.iNo openInodes = none → ∃ inode' part',
    inodeOpen { part with openInodes } inode.iNo disk' = .ok (inode', part') ∧
      inode'.iNo = inode.iNo ∧ inode'.iSize = inode.iSize ∧ inode'.iSectors = inode.iSectors
  others : ∀ m, m < 4096 → m ≠ inode.iNo.toNat → ∀ k, k < 76 →
    disk' (inodeSlot part m + k) = disk (inodeSlot part m + k)
  outside : ∀ a, a < 512 * part.sb.inodeTableLba.toNat ∨
    512 * (part.sb.inodeTableLba.toNat + part.sb.inodeTableSects.toNat) ≤ a → disk' a = disk a

/-- The disk already holds the inode in its slot, and also where `inode_sync` puts it. -/
structure AlreadyStored (part : Partition) (inode : Inode) (disk : Disk) : Prop where
  iNo : (Inode.ofBytes disk (inodeSlot part inode.iNo.toNat)).iNo = inode.iNo
  iSize : (Inode.ofBytes disk (inodeSlot part inode.iNo.toNat)).iSize = inode.iSize
  iSectors : (Inode.ofBytes disk (inodeSlot part inode.iNo.toNat)).iSectors = inode.iSectors
  low : Inode.ofBytes disk (inodeSlot part (inode.iNo.toNat % 256)) = inode.toPure

section RoundTrip

variable {part : Partition} {inode : Inode} {disk : Disk}

theorem inodeSlot_apart {m n k : Nat} (hne : m ≠ n) (hk : k < 76) :
    inodeSlot part m + k < inodeSlot part n ∨
      inodeSlot part n + 4 * inode.words.length ≤ inodeSlot part m + k := by
  rw [Inode.length_words]
  unfold inodeSlot
  omega

theorem LaidOut.reopen (h : LaidOut part) (hno : inode.iNo.toNat < 4096) (disk : Disk)
    {openInodes : List Inode} (hclosed : openFound inode.iNo openInodes = none) :
    ∃ part', inodeOpen { part with openInodes } inode.iNo disk =
      .ok ({ Inode.ofBytes disk (inodeSlot part inode.iNo.toNat) with iOpenCnts := 1 }, part') :=
  ⟨_, @inodeOpen_ok { part with openInodes } disk _ h.inodeTable_le hno hclosed⟩

theorem SyncRoundTrip.of_lt (h : LaidOut part) (hno : inode.iNo.toNat < 256) :
    SyncRoundTrip part inode disk
      (storeWords disk (inodeSlot part inode.iNo.toNat) inode.toPure.words) := by
  constructor
  · intro openInodes hclosed
    obtain ⟨part', hopen⟩ := h.reopen (by omega)
      (storeWords disk (inodeSlot part inode.iNo.toNat) inode.toPure.words) hclosed
    rw [Inode.ofBytes_storeWords] at hopen
    exact ⟨_, part', hopen, rfl, rfl, rfl⟩
  · intro m hm hne k hk
    exact storeWords_apply_of_not (inodeSlot_apart hne hk)
  · intro a ha
    refine storeWords_apply_of_not ?_
    rw [h.sb, superBlock_inodeTableSects, show (608 : UInt32).toNat = 608 from rfl, ← h.sb] at ha
    rw [Inode.length_words]
    unfold inodeSlot
    omega

theorem LaidOut.roundTrip_iff_of_ge (h : LaidOut part) (hno : inode.iNo.toNat < 4096)
    (hge : 256 ≤ inode.iNo.toNat) :
    SyncRoundTrip part inode disk (storeWords disk (inodeSlot part (inode.iNo.toNat % 256))
      inode.toPure.words) ↔ AlreadyStored part inode disk := by
  have hne : inode.iNo.toNat % 256 ≠ inode.iNo.toNat := by omega
  have hslot : Inode.ofBytes (storeWords disk (inodeSlot part (inode.iNo.toNat % 256))
      inode.toPure.words) (inodeSlot part inode.iNo.toNat) =
      Inode.ofBytes disk (inodeSlot part inode.iNo.toNat) :=
    Inode.ofBytes_congr fun k hk => storeWords_apply_of_not (inodeSlot_apart hne.symm hk)
  constructor
  · intro hround
    obtain ⟨inode', part', hopen, hiNo, hiSize, hiSectors⟩ := hround.reopened [] rfl
    obtain ⟨part'', hopen'⟩ := h.reopen hno (storeWords disk
      (inodeSlot part (inode.iNo.toNat % 256)) inode.toPure.words)
      (show openFound _ [] = none from rfl)
    rw [hopen', hslot] at hopen
    obtain ⟨rfl, -⟩ := Prod.mk.inj (Except.ok.inj hopen)
    refine ⟨hiNo, hiSize, hiSectors, ?_⟩
    rw [← Inode.ofBytes_storeWords inode.toPure disk (inodeSlot part (inode.iNo.toNat % 256))]
    exact Inode.ofBytes_congr fun k hk => (hround.others _ (by omega) hne k hk).symm
  · intro hstored
    have hsame : storeWords disk (inodeSlot part (inode.iNo.toNat % 256)) inode.toPure.words =
      disk := by
      rw [← hstored.low]
      exact storeWords_eq_self fun i w hw => Inode.wordAt_of_words hw
    rw [hsame]
    constructor
    · intro openInodes hclosed
      obtain ⟨part', hopen⟩ := h.reopen hno disk hclosed
      exact ⟨_, part', hopen, hstored.iNo, hstored.iSize, hstored.iSectors⟩
    · intros
      rfl
    · intros
      rfl

/-- In a partition that has just been formatted, inode 256 is written over the root directory's. -/
theorem LaidOut.inodeSync_256 (h : LaidOut part) (hno : inode.iNo = 256)
    (pad ioBuf : Nat → UInt8) (disk₀ : Disk) :
    ∃ disk', inodeSync part inode ioBuf (formatted part.startLba part.secCnt pad disk₀) =
    .ok disk' ∧
      Inode.ofBytes disk' (inodeSlot part 0) = inode.toPure ∧
      (Inode.ofBytes disk' (inodeSlot part 256)).iNo = 0 ∧
      ¬ SyncRoundTrip part inode (formatted part.startLba part.secCnt pad disk₀) disk' := by
  have hnat : inode.iNo.toNat = 256 := congrArg UInt32.toNat hno
  have hzero : (Inode.ofBytes (formatted part.startLba part.secCnt pad disk₀)
      (inodeSlot part 256)).iNo = 0 := by
    show wordAt _ _ = 0
    rw [inodeSlot, h.sb, superBlock_inodeTableLba, show 76 * 256 = 4 * 4864 from rfl,
      h.accepted.wordAt_inodeTable (by decide), if_neg (by decide), if_neg (by decide)]
  refine ⟨_, h.inodeSync_ok inode ioBuf, ?_, ?_, fun hround => ?_⟩
  · rw [hnat]
    exact Inode.ofBytes_storeWords ..
  · rw [← hzero, hnat]
    refine congrArg Inode.iNo (Inode.ofBytes_congr fun k hk => ?_)
    exact storeWords_apply_of_not (inodeSlot_apart (show 256 ≠ 0 by decide) hk)
  · have hstored := ((h.roundTrip_iff_of_ge (by omega) (by omega)).mp hround).iNo
    rw [hnat, hzero, hno] at hstored
    exact absurd hstored (by decide)

end RoundTrip

/-- In a formatted partition an inode that `inode_sync` writes is read back, and no other changes,
exactly when its number fits in a byte, or the disk already holds what would be written. -/
theorem inodeSync_roundTrip_iff {part : Partition} {pad : Nat → UInt8} {disk₀ disk₁ : Disk}
    (hformat : partitionFormat part pad disk₀ = .ok disk₁)
    (hsb : part.sb = superBlock part.startLba part.secCnt) (inode : Inode)
    (hno : inode.iNo.toNat < 4096) (ioBuf : Nat → UInt8) (disk : Disk) :
    ∃ disk', inodeSync part inode ioBuf disk = .ok disk' ∧
      (SyncRoundTrip part inode disk disk' ↔
        inode.iNo.toNat < 256 ∨ AlreadyStored part inode disk) := by
  have h : LaidOut part := ⟨(partitionFormat_eq_ok.mp hformat).1, hsb⟩
  refine ⟨_, h.inodeSync_ok inode ioBuf, ?_⟩
  by_cases hlt : inode.iNo.toNat < 256
  · rw [Nat.mod_eq_of_lt hlt]
    exact iff_of_true (.of_lt h hlt) (.inl hlt)
  · rw [h.roundTrip_iff_of_ge hno (by omega), or_iff_right hlt]

theorem inodeSync_roundTrip_iff_sdb1 :
    let part := { Partition.recorded "sdb1" 2048 20000 with sb := superBlock 2048 20000 }
    let inode : Inode := ⟨5, 0, 1, 0, .replicate 13 0, 0, 0⟩
    ∃ disk', inodeSync part inode (fun _ => 0) (fun _ => 0) = .ok disk' ∧
      (SyncRoundTrip part inode (fun _ => 0) disk' ↔
        5 < 256 ∨ AlreadyStored part inode fun _ => 0) :=
  inodeSync_roundTrip_iff
    ((@partitionFormat_eq_ok _ (fun _ => 0) (fun _ => 0) _).mpr ⟨by decide, rfl⟩) rfl _
    (by decide) _ _

/-- In a partition that has just been formatted, inode 256 is written over the root directory's, and
inode 256 is then read as number 0. -/
theorem inodeSync_roundTrip_fails :
    let part := { Partition.recorded "sdb1" 2048 20000 with sb := superBlock 2048 20000 }
    let inode : Inode := ⟨256, 0, 1, 0, .replicate 13 0, 0, 0⟩
    ∃ disk disk', partitionFormat part (fun _ => 0) (fun _ => 0) = .ok disk ∧
      inodeSync part inode (fun _ => 0) disk = .ok disk' ∧
      Inode.ofBytes disk' (inodeSlot part 0) = inode.toPure ∧
      (Inode.ofBytes disk' (inodeSlot part 256)).iNo = 0 ∧
      ¬ SyncRoundTrip part inode disk disk' := by
  intro part inode
  have h : LaidOut part := ⟨by decide, rfl⟩
  obtain ⟨disk', hsync, hroot, hzero, hround⟩ := h.inodeSync_256
    (show inode.iNo = 256 from rfl) (fun _ => 0) (fun _ => 0) fun _ => 0
  exact ⟨_, disk', partitionFormat_eq_ok.mpr ⟨h.accepted, rfl⟩, hsync, hroot, hzero, hround⟩

end OriginOS
