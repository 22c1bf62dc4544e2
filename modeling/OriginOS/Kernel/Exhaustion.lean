import OriginOS.Fs.File
import OriginOS.Kernel.AddressSpaces

/-! What the functions that search a bitmap do when they find nothing. `bitmap_scan` asserts that it
has found a byte with a clear bit before it tests for the case that it has not, so a full bitmap
ends in `panic_spin`; and its last loop examines the bit behind the bitmap. -/

namespace OriginOS

open Lib

def Bitmap.AnyClear (btmp : Bitmap) : Prop := ∃ i < 8 * btmp.btmpBytesLen, btmp.bit i = false

/-- The bitmap has a run of `cnt` clear bits. -/
def Bitmap.HasRun (btmp : Bitmap) (cnt : Nat) : Prop :=
  ∃ i, i + cnt ≤ 8 * btmp.btmpBytesLen ∧ ∀ j, i ≤ j → j < i + cnt → btmp.bit j = false

/-- The last `cnt - 1` bits of the bitmap are clear, and so is the bit behind it. -/
def Bitmap.RunsOver (btmp : Bitmap) (cnt : Nat) : Prop :=
  1 < cnt ∧ cnt ≤ 8 * btmp.btmpBytesLen + 1 ∧
    ∀ j, 8 * btmp.btmpBytesLen + 1 - cnt ≤ j → j ≤ 8 * btmp.btmpBytesLen → btmp.bit j = false

/-- The call does not stop, returns `failed` exactly when its resource is exhausted, and then leaves
the state as it was. -/
def Reports {ε α σ : Type} (x : Except ε (α × σ)) (failed : α) (s : σ) (exhausted : Prop) : Prop :=
  ∃ a t, x = .ok (a, t) ∧ (a = failed ↔ exhausted) ∧ (exhausted → t = s)

/-- The virtual range that a call with `pf` searches is the kernel's, or one that
`create_user_vaddr_bitmap` has set up. -/
structure RangeSet (s : MemState) (pf : PoolFlags) : Prop where
  start : (s.vaddr pf).vaddrStart = 4096 * pf.firstPage
  len : (s.vaddr pf).vaddrBitmap.btmpBytesLen = pf.rangeBytes

section Bitmaps

variable {btmp : Bitmap} {cnt : Nat}

theorem Bitmap.hasRun_one : btmp.HasRun 1 ↔ btmp.AnyClear := by
  constructor
  · rintro ⟨i, hi, hclear⟩
    exact ⟨i, by omega, hclear i (Nat.le_refl i) (by omega)⟩
  · rintro ⟨i, hi, hclear⟩
    refine ⟨i, by omega, fun j hj hj' => ?_⟩
    rw [show j = i by omega]
    exact hclear

theorem Bitmap.AnyClear.firstClear (h : btmp.AnyClear) : ∃ i, btmp.FirstClear i := by
  classical
  have hlt := (Nat.find_spec h).1
  refine ⟨Nat.find h, hlt, (Nat.find_spec h).2, fun j hj => ?_⟩
  have hmin := Nat.find_min h hj
  by_contra hset
  exact hmin ⟨by omega, by simpa using hset⟩

theorem Bitmap.not_anyClear :
    ¬ btmp.AnyClear ↔ ∀ i < 8 * btmp.btmpBytesLen, btmp.bit i = true := by
  simp only [Bitmap.AnyClear, not_exists, not_and, Bool.not_eq_false]

/-- A run that `bitmap_scan` may take lies in the bitmap or ends with the bit behind it. -/
theorem Bitmap.exists_clearRun_iff (hcnt : 1 < cnt) :
    (∃ i, btmp.ClearRun cnt i) ↔ btmp.HasRun cnt ∨ btmp.RunsOver cnt := by
  constructor
  · rintro ⟨i, hclear, hbound, -⟩
    rcases Nat.lt_or_ge (8 * btmp.btmpBytesLen) (i + cnt) with hover | hin
    · refine .inr ⟨hcnt, by omega, fun j hj hj' => hclear j (by omega) (by omega)⟩
    · exact .inl ⟨i, hin, hclear⟩
  · rintro (⟨i, hend, hclear⟩ | ⟨-, hle, hclear⟩)
    · exact ⟨i, hclear, by omega, by omega⟩
    · exact ⟨8 * btmp.btmpBytesLen + 1 - cnt, fun j hj hj' =>
        hclear j hj (by omega), by omega, by omega⟩

end Bitmaps

theorem not_reports_of_error {ε α σ : Type} {x : Except ε (α × σ)} {e : ε} (h : x = .error e)
    (failed : α) (s : σ) (exhausted : Prop) : ¬ Reports x failed s exhausted := by
  rintro ⟨a, t, hok, -⟩
  exact nomatch h.symm.trans hok

/-! ### One bit -/

/-- A search for one bit reports exhaustion when there is one to find, and stops when there is not.
-/
theorem reports_one_iff {α σ : Type} {btmp : Bitmap} {x : Except Panic (α × σ)} {failed : α} {s : σ}
    (hfound : ∀ i, btmp.FirstClear i → ∃ a t, x = .ok (a, t) ∧ a ≠ failed)
    (hstops : (∃ p, bitmapScan false btmp 1 = .error p) → ∃ p, x = .error p) :
    Reports x failed s (¬ btmp.HasRun 1) ↔ btmp.AnyClear := by
  rw [Bitmap.hasRun_one]
  constructor
  · intro h
    by_contra hfull
    obtain ⟨p, hp⟩ := hstops (bitmapScan_stops_iff.mpr (Bitmap.not_anyClear.mp hfull))
    exact not_reports_of_error hp _ _ _ h
  · intro hany
    obtain ⟨i, hi⟩ := hany.firstClear
    obtain ⟨a, t, hx, hne⟩ := hfound i hi
    exact ⟨a, t, hx, iff_of_false hne (not_not_intro hany), fun h => absurd hany h⟩

theorem palloc_reports_iff {p : Pool} (hstart : 0 < p.phyAddrStart) :
    Reports (palloc false p) 0 p (¬ p.poolBitmap.HasRun 1) ↔ p.poolBitmap.AnyClear := by
  refine reports_one_iff (fun i hi => ?_) ?_
  · refine ⟨_, _, palloc_first false hi.lt hi.set hi.clear, ?_⟩
    unfold Pool.frame
    omega
  · rintro ⟨e, he⟩
    refine ⟨e, ?_⟩
    unfold palloc pallocScan
    rw [he]
    rfl

section Partitions

variable {part : Partition}

theorem inodeBitmapAlloc_reports_iff (hfit : BitmapsFit part) :
    Reports (inodeBitmapAlloc part) 0xffffffff part (¬ part.inodeBitmap.HasRun 1) ↔
      part.inodeBitmap.AnyClear := by
  refine reports_one_iff (fun i hi => ?_) ?_
  · refine ⟨_, _, inodeBitmapAlloc_eq_ok.mpr ⟨i, hi, rfl, rfl⟩, fun heq => ?_⟩
    have hbits := hfit.bits .inodeBitmap
    have hlt : i < 8 * (part.bitmap .inodeBitmap).btmpBytesLen := hi.lt
    have htoNat := congrArg UInt32.toNat heq
    rw [UInt32.toNat_ofNat_of_lt' (by rw [UInt32.size]; omega)] at htoNat
    have hff : (0xffffffff : UInt32).toNat = 2 ^ 32 - 1 := rfl
    omega
  · rintro ⟨e, he⟩
    refine ⟨e, ?_⟩
    unfold inodeBitmapAlloc
    rw [he]
    rfl

theorem blockBitmapAlloc_reports_iff (hfit : BitmapsFit part) :
    Reports (blockBitmapAlloc part) 0xffffffff part (¬ part.blockBitmap.HasRun 1) ↔
      part.blockBitmap.AnyClear := by
  refine reports_one_iff (fun i hi => ?_) ?_
  · refine ⟨_, _, blockBitmapAlloc_eq_ok.mpr ⟨i, hi, rfl, rfl⟩, fun heq => ?_⟩
    have hbits := hfit.bits .blockBitmap
    have hdata := hfit.data
    have hlt : i < 8 * (part.bitmap .blockBitmap).btmpBytesLen := hi.lt
    have htoNat := congrArg UInt32.toNat heq
    rw [UInt32.toNat_add, UInt32.toNat_ofNat_of_lt' (by rw [UInt32.size]; omega)] at htoNat
    have hff : (0xffffffff : UInt32).toNat = 2 ^ 32 - 1 := rfl
    omega
  · rintro ⟨e, he⟩
    refine ⟨e, ?_⟩
    unfold blockBitmapAlloc
    rw [he]
    rfl

end Partitions

/-! ### A run of pages -/

section Ranges

variable {s : MemState} {pf : PoolFlags} {n : Nat}

theorem Mem.vaddrGet_stops (hdebug : s.ndebug = false) {p : Panic}
    (h : bitmapScan false (s.vaddr pf).vaddrBitmap n = .error p) :
    Mem.vaddrGet pf n s = .error (.panic p) := by
  unfold Mem.vaddrGet
  rw [Mem.read_bind, hdebug, h]
  rfl

theorem Mem.vaddrGet_none (hdebug : s.ndebug = false)
    (h : bitmapScan false (s.vaddr pf).vaddrBitmap n = .ok (-1)) :
    Mem.vaddrGet pf n s = .ok (0, s) := by
  unfold Mem.vaddrGet
  rw [Mem.read_bind, hdebug, h]
  rfl

theorem Mem.vaddrGet_found (hdebug : s.ndebug = false) (hrange : RangeSet s pf)
    (hn : 1 ≤ n) {i : Nat}
    (h : bitmapScan false (s.vaddr pf).vaddrBitmap n = .ok (i : Int))
    (hrun : (s.vaddr pf).vaddrBitmap.ClearRun n i) :
    ∃ v t, Mem.vaddrGet pf n s = .ok (v, t) ∧ v ≠ 0 := by
  have hbound := hrun.bound
  have hone := hrun.one
  rw [hrange.len] at hbound
  refine ⟨((s.vaddr pf).vaddrStart + i * pgSize) % 2 ^ 32,
    s.setVaddrBitmap pf ((s.vaddr pf).vaddrBitmap.putRun true n i), ?_, ?_⟩
  · unfold Mem.vaddrGet
    rw [Mem.read_bind, hdebug, h, bind_of_ok Mem.ofPanic_ok, if_neg (by omega), Int.toNat_natCast,
      Mem.bitmapSetLoop_one, bind_of_ok Mem.ofPanic_ok, Mem.write_bind]
    rfl
  · rw [hrange.start]
    unfold pgSize
    cases pf <;> simp only [PoolFlags.firstPage, PoolFlags.rangeBytes] at hbound ⊢ <;> omega

theorem vaddrGet_reports_iff (hdebug : s.ndebug = false) (hrange : RangeSet s pf) (hn : 1 ≤ n) :
    Reports (Mem.vaddrGet pf n s) 0 s (¬ (s.vaddr pf).vaddrBitmap.HasRun n) ↔
      (s.vaddr pf).vaddrBitmap.AnyClear ∧
        ((s.vaddr pf).vaddrBitmap.RunsOver n → (s.vaddr pf).vaddrBitmap.HasRun n) := by
  by_cases hany : (s.vaddr pf).vaddrBitmap.AnyClear
  swap
  · obtain ⟨p, hp⟩ : ∃ p, bitmapScan false _ n = .error p :=
      bitmapScan_stops_iff.mpr (Bitmap.not_anyClear.mp hany)
    refine iff_of_false ?_ fun h => hany h.1
    exact not_reports_of_error (Mem.vaddrGet_stops hdebug hp) _ _ _
  rw [and_iff_right hany]
  cases hscan : bitmapScan false (s.vaddr pf).vaddrBitmap n with
  | error p => exact absurd hany (Bitmap.not_anyClear.mpr (bitmapScan_stops_iff.mp ⟨p, hscan⟩))
  | ok r =>
    rcases bitmapScan_ok hn hscan with ⟨rfl, hmany⟩ | ⟨i, rfl, hrun⟩
    · -- nothing is found, and there is nothing to find
      have hnone := (bitmapScan_many_iff hmany hscan).mp rfl
      rw [Bitmap.exists_clearRun_iff hmany] at hnone
      refine iff_of_true ⟨0, s, Mem.vaddrGet_none hdebug hscan, ?_, fun _ => rfl⟩
        fun h => absurd (.inr h) hnone
      exact iff_of_true rfl fun h => hnone (.inl h)
    · obtain ⟨v, t, hok, hne⟩ := Mem.vaddrGet_found hdebug hrange hn hscan hrun
      by_cases hhas : (s.vaddr pf).vaddrBitmap.HasRun n
      · refine iff_of_true ⟨v, t, hok, iff_of_false hne (not_not_intro hhas), fun h => ?_⟩
          fun _ => hhas
        exact absurd hhas h
      · -- the run that is found ends behind the bitmap
        have hover : (s.vaddr pf).vaddrBitmap.RunsOver n := by
          have hmany : 1 < n := by
            by_contra hle
            obtain rfl : n = 1 := by omega
            exact hhas (Bitmap.hasRun_one.mpr hany)
          exact ((Bitmap.exists_clearRun_iff hmany).mp ⟨i, hrun⟩).resolve_left hhas
        refine iff_of_false ?_ fun h => hhas (h hover)
        rintro ⟨v', t', hok', hiff, -⟩
        obtain ⟨rfl, rfl⟩ := Prod.mk.inj (Except.ok.inj (hok.symm.trans hok'))
        exact hne (hiff.mpr hhas)

end Ranges

/-- The searches report exhaustion, and go on, when a bit of the bitmap is clear and, for a run of
pages, no run is taken that ends behind the bitmap. -/
theorem exhaustion_reported_iff (p : Pool) (hstart : 0 < p.phyAddrStart) (s : MemState)
    (pf : PoolFlags) (n : Nat) (hdebug : s.ndebug = false) (hrange : RangeSet s pf) (hn : 1 ≤ n)
    (part : Partition) (hfit : BitmapsFit part) :
    (Reports (palloc false p) 0 p (¬ p.poolBitmap.HasRun 1) ↔ p.poolBitmap.AnyClear) ∧
    (Reports (Mem.vaddrGet pf n s) 0 s (¬ (s.vaddr pf).vaddrBitmap.HasRun n) ↔
      (s.vaddr pf).vaddrBitmap.AnyClear ∧
        ((s.vaddr pf).vaddrBitmap.RunsOver n → (s.vaddr pf).vaddrBitmap.HasRun n)) ∧
    (Reports (inodeBitmapAlloc part) 0xffffffff part (¬ part.inodeBitmap.HasRun 1) ↔
      part.inodeBitmap.AnyClear) ∧
    (Reports (blockBitmapAlloc part) 0xffffffff part (¬ part.blockBitmap.HasRun 1) ↔
      part.blockBitmap.AnyClear) :=
  ⟨palloc_reports_iff hstart, vaddrGet_reports_iff hdebug hrange hn,
    inodeBitmapAlloc_reports_iff hfit, blockBitmapAlloc_reports_iff hfit⟩

/-- After `mem_init` and on a new partition, no search is exhausted and none stops. -/
theorem exhaustion_reported_boot :
    Reports (palloc false (bootWorld.mem.pool .kernel)) 0 (bootWorld.mem.pool .kernel)
      (¬ (bootWorld.mem.pool .kernel).poolBitmap.HasRun 1) ∧
    Reports (Mem.vaddrGet .kernel 1 bootWorld.mem) 0 bootWorld.mem
      (¬ (bootWorld.mem.vaddr .kernel).vaddrBitmap.HasRun 1) ∧
    Reports (inodeBitmapAlloc blankMount.part) 0xffffffff blankMount.part
      (¬ blankMount.part.inodeBitmap.HasRun 1) ∧
    Reports (blockBitmapAlloc blankMount.part) 0xffffffff blankMount.part
      (¬ blankMount.part.blockBitmap.HasRun 1) := by
  have hinv := bootWorld_inOrder.inv
  have hstart : 0 < (bootWorld.mem.pool .kernel).phyAddrStart := by
    rw [hinv.laidOut.start]
    decide
  obtain ⟨hpalloc, hvaddr, hinode, hblock⟩ :=
    exhaustion_reported_iff _ hstart bootWorld.mem .kernel 1
    hinv.debug ⟨hinv.kernelRange.1, hinv.kernelRange.2⟩ (Nat.le_refl 1) _ blankMount_init.1
  have hpool : (bootWorld.mem.pool .kernel).poolBitmap.AnyClear :=
    ⟨0, by rw [hinv.laidOut.len]; decide, bootWorld_inOrder.pool 0 (by decide)⟩
  have hrange : (bootWorld.mem.vaddr .kernel).vaddrBitmap.AnyClear :=
    ⟨0, by
      rw [show (bootWorld.mem.vaddr .kernel).vaddrBitmap.btmpBytesLen = 480 from hinv.kernelRange.2]
      decide,
      bootWorld_inOrder.range 0 (by decide)⟩
  exact ⟨hpalloc.mpr hpool, hvaddr.mpr ⟨hrange, fun hover => absurd hover.1 (by decide)⟩,
    hinode.mpr ⟨0, by decide, rfl⟩, hblock.mpr ⟨0, by decide, rfl⟩⟩

def fullPool : Pool := ⟨⟨480, memBitmapBase, fun _ => 0xff⟩, 0x200000, 0xf00000⟩

/-- The kernel's virtual range with only the last page left, and a clear bit behind its bitmap. -/
def lastPage : MemState :=
  { bootWorld.mem with kernelVaddr := ⟨⟨480, memBitmapBase + 960,
    fun k => if k < 479 then 0xff else if k = 479 then 0x7f else 0⟩, kHeapStart⟩ }

theorem bit_lastPage {i : Nat} (hi : i < 3839) :
    (lastPage.vaddr .kernel).vaddrBitmap.bit i = true := by
  have hones : ∀ j : Fin 8, (0xff : UInt8).toBitVec.getLsbD j.val = true := by decide
  have hlast : ∀ j : Fin 7, (0x7f : UInt8).toBitVec.getLsbD j.val = true := by decide
  simp only [Bitmap.bit, lastPage, MemState.vaddr]
  by_cases hbyte : i / 8 < 479
  · rw [if_pos hbyte]
    exact hones ⟨i % 8, by omega⟩
  · rw [if_neg hbyte, if_pos (by omega)]
    exact hlast ⟨i % 8, by omega⟩

/-- On a full pool `palloc` stops in `panic_spin`; and `vaddr_get` returns two pages when one is
left. -/
theorem exhaustion_reported_fails :
    ¬ Reports (palloc false fullPool) 0 fullPool (¬ fullPool.poolBitmap.HasRun 1) ∧
    ¬ Reports (Mem.vaddrGet .kernel 2 lastPage) 0 lastPage
      (¬ (lastPage.vaddr .kernel).vaddrBitmap.HasRun 2) := by
  constructor
  · rw [palloc_reports_iff (by decide), Bitmap.not_anyClear]
    intro i _
    have hones : ∀ j : Fin 8, (0xff : UInt8).toBitVec.getLsbD j.val = true := by decide
    exact hones ⟨i % 8, by omega⟩
  · rw [vaddrGet_reports_iff rfl ⟨rfl, rfl⟩ (by decide)]
    rintro ⟨-, h⟩
    have hover : (lastPage.vaddr .kernel).vaddrBitmap.RunsOver 2 := by
      refine ⟨by decide, by decide, fun j hj hj' => ?_⟩
      have hlen : (lastPage.vaddr .kernel).vaddrBitmap.btmpBytesLen = 480 := rfl
      rw [hlen] at hj hj'
      obtain rfl | rfl : j = 3839 ∨ j = 3840 := by omega
      · rfl
      · rfl
    obtain ⟨i, hi, hclear⟩ := h hover
    have hlen : (lastPage.vaddr .kernel).vaddrBitmap.btmpBytesLen = 480 := rfl
    rw [hlen] at hi
    have hbit := hclear i (Nat.le_refl i) (by omega)
    rw [bit_lastPage (by omega)] at hbit
    exact Bool.noConfusion hbit

end OriginOS
