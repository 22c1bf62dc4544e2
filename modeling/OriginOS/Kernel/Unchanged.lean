import OriginOS.Kernel.Heap
import OriginOS.Kernel.MemorySteps

/-! What the functions of `kernel/memory.c` leave alone, for every part of the state that does not
depend on what they store to: the memory, the pools, and the bitmaps of the virtual ranges. -/

namespace OriginOS

open Lib

variable {τ : Type} {f : MemState → τ}

structure OffMemory (f : MemState → τ) : Prop where
  phys : ∀ s mem, f (s.setPhys mem) = f s

/-- One that stores to the memory and the pools' bitmaps do not change. -/
structure OffFrames (f : MemState → τ) : Prop extends OffMemory f where
  pool : ∀ s pool, f (s.setPool pool) = f s

/-- One that stores to the memory and the bitmaps of the virtual ranges do not change. -/
structure OffRanges (f : MemState → τ) : Prop extends OffMemory f where
  range : ∀ s pf btmp, f (s.setVaddrBitmap pf btmp) = f s

structure OffPages (f : MemState → τ) : Prop extends OffFrames f, OffRanges f

namespace Mem

theorem keeps_assert (c : Bool) (p : Panic) : Keeps f (assert c p) :=
  Keeps.read_bind fun _ => Keeps.lift _ _

theorem keeps_translate (va : Nat) : Keeps f (translate va) := by
  refine Keeps.read_bind fun s => ?_
  split
  · exact Keeps.pure _
  · exact Keeps.stop _

theorem keeps_loadByte (va : Nat) : Keeps f (loadByte va) :=
  (keeps_translate va).bind fun _ => Keeps.read_bind fun _ => Keeps.pure _

theorem keeps_loadWord (va : Nat) : Keeps f (loadWord va) :=
  (keeps_translate va).bind fun _ => Keeps.read_bind fun _ => Keeps.pure _

theorem keeps_addrV2p (va : Nat) : Keeps f (addrV2p va) :=
  (keeps_loadWord _).bind fun _ => Keeps.pure _

theorem keeps_assertM {condition : Mem Bool} (h : Keeps f condition) (p : Panic) :
    Keeps f (assertM condition p) :=
  Keeps.read_bind fun _ => (Keeps.pure _).ite (h.bind fun _ => keeps_assert _ _)

theorem keeps_elemFindLoop (tail objElem fuel elem : Nat) :
    Keeps f (elemFindLoop tail objElem fuel elem) := by
  induction fuel generalizing elem with
  | zero => exact Keeps.stop _
  | succ fuel ih =>
    exact (Keeps.pure _).ite ((Keeps.pure _).ite ((keeps_loadWord _).bind fun next => ih next))

theorem keeps_elemFind (plist objElem : Nat) : Keeps f (elemFind plist objElem) :=
  (keeps_loadWord _).bind fun _ => keeps_elemFindLoop _ _ _ _

theorem keeps_listEmpty (plist : Nat) : Keeps f (listEmpty plist) :=
  (keeps_loadWord _).bind fun _ => Keeps.pure _

theorem keeps_arena2block (a idx : Nat) : Keeps f (arena2block a idx) :=
  (keeps_loadWord _).bind fun _ => (keeps_loadWord _).bind fun _ => Keeps.pure _

theorem keeps_sysMallocDesc (descs size cnt descIdx : Nat) :
    Keeps f (sysMallocDesc descs size cnt descIdx) := by
  induction cnt generalizing descIdx with
  | zero => exact Keeps.pure _
  | succ cnt ih => exact (keeps_loadWord _).bind fun _ => (Keeps.pure _).ite (ih _)

end Mem

/-! ### Stores to the memory -/

namespace OffMemory

variable (h : OffMemory f)
include h

theorem storeByte (va : Nat) (v : UInt8) : Keeps f (Mem.storeByte va v) :=
  (Mem.keeps_translate va).bind fun _ s => h.phys s _

theorem storeWord (va w : Nat) : Keeps f (Mem.storeWord va w) :=
  (Mem.keeps_translate va).bind fun _ s => h.phys s _

theorem memsetLoop (value : UInt8) (size dst : Nat) : Keeps f (Mem.memsetLoop value size dst) := by
  induction size generalizing dst with
  | zero => exact Keeps.pure ()
  | succ size ih => exact (h.storeByte dst value).bind fun _ => ih (dst + 1)

theorem memset (dst : Nat) (value : UInt8) (size : Nat) : Keeps f (Mem.memset dst value size) :=
  (Mem.keeps_assert _ _).bind fun _ => h.memsetLoop value size dst

theorem listInsertBefore (before elem : Nat) : Keeps f (Mem.listInsertBefore before elem) :=
  (Mem.keeps_loadWord _).bind fun _ => (h.storeWord _ _).bind fun _ =>
    (Mem.keeps_loadWord _).bind fun _ => (h.storeWord _ _).bind fun _ =>
      (h.storeWord _ _).bind fun _ => h.storeWord _ _

theorem listAppend (plist elem : Nat) : Keeps f (Mem.listAppend plist elem) :=
  h.listInsertBefore _ _

theorem listRemove (pelem : Nat) : Keeps f (Mem.listRemove pelem) :=
  (Mem.keeps_loadWord _).bind fun _ => (Mem.keeps_loadWord _).bind fun _ =>
    (h.storeWord _ _).bind fun _ => (Mem.keeps_loadWord _).bind fun _ =>
      (Mem.keeps_loadWord _).bind fun _ => h.storeWord _ _

theorem listPop (plist : Nat) : Keeps f (Mem.listPop plist) :=
  (Mem.keeps_loadWord _).bind fun _ => (h.listRemove _).bind fun _ => Keeps.pure _

theorem pageTablePteRemove (vaddr : Nat) : Keeps f (Mem.pageTablePteRemove vaddr) :=
  (Mem.keeps_loadWord _).bind fun _ => h.storeWord _ _

theorem sysMallocSplit (desc a fuel blockIdx : Nat) :
    Keeps f (Mem.sysMallocSplit desc a fuel blockIdx) := by
  induction fuel generalizing blockIdx with
  | zero => exact Keeps.stop _
  | succ fuel ih =>
    refine (Mem.keeps_loadWord _).bind fun _ => Keeps.ite ?_ (Keeps.pure _)
    refine (Mem.keeps_arena2block _ _).bind fun b => ?_
    refine (Mem.keeps_assertM ?_ _).bind fun _ => ?_
    · exact (Mem.keeps_loadWord _).bind fun _ => (Mem.keeps_elemFind _ _).bind fun _ => Keeps.pure _
    · exact (Mem.keeps_loadWord _).bind fun _ => (h.listAppend _ _).bind fun _ => ih _

theorem sysMallocBlock (desc : Nat) : Keeps f (Mem.sysMallocBlock desc) :=
  (h.listPop _).bind fun _ => (Mem.keeps_loadWord _).bind fun _ => (h.memset _ _ _).bind fun _ =>
    (Mem.keeps_loadWord _).bind fun _ => (h.storeWord _ _).bind fun _ => Keeps.pure _

theorem sysFreeLoop (a fuel blockIdx : Nat) : Keeps f (Mem.sysFreeLoop a fuel blockIdx) := by
  induction fuel generalizing blockIdx with
  | zero => exact Keeps.stop _
  | succ fuel ih =>
    refine (Mem.keeps_loadWord _).bind fun _ => (Mem.keeps_loadWord _).bind fun _ => ?_
    refine Keeps.ite ((Mem.keeps_arena2block _ _).bind fun b => ?_) (Keeps.pure _)
    refine (Mem.keeps_assertM ?_ _).bind fun _ => (h.listRemove _).bind fun _ => ih _
    exact (Mem.keeps_loadWord _).bind fun _ => Mem.keeps_elemFind _ _

end OffMemory

/-! ### Frames -/

namespace OffFrames

variable (h : OffFrames f)
include h

theorem palloc (pf : PoolFlags) : Keeps f (Mem.palloc pf) :=
  Keeps.update (fun s _ => h.pool s _) fun _ => Keeps.pure _

theorem pfree (pagePhyAddr : Nat) : Keeps f (Mem.pfree pagePhyAddr) :=
  Keeps.update (fun s _ => h.pool s _) fun _ => Keeps.pure _

theorem pageTableAdd (vaddr pagePhyaddr : Nat) : Keeps f (Mem.pageTableAdd vaddr pagePhyaddr) := by
  refine (Mem.keeps_loadWord _).bind fun pde => Keeps.ite ?_ ?_
  · refine (Mem.keeps_loadWord _).bind fun pte => (Mem.keeps_assert _ _).bind fun _ => ?_
    exact (Mem.keeps_loadWord _).bind fun pte => (h.storeWord _ _).ite (Keeps.stop _)
  · refine (h.palloc _).bind fun p => (h.storeWord _ _).bind fun _ =>
      (h.memset _ _ _).bind fun _ => ?_
    exact (Mem.keeps_loadWord _).bind fun pte => (Mem.keeps_assert _ _).bind fun _ =>
      h.storeWord _ _

theorem mallocPageLoop (pf : PoolFlags) (vaddrStart cnt vaddr : Nat) :
    Keeps f (Mem.mallocPageLoop pf vaddrStart cnt vaddr) := by
  induction cnt generalizing vaddr with
  | zero => exact Keeps.pure _
  | succ cnt ih =>
    refine (h.palloc pf).bind fun page => (Keeps.pure 0).ite ?_
    exact (h.pageTableAdd vaddr page).bind fun _ => ih _

theorem mfreePageLoop (memPool : PoolFlags) (cnt vaddr : Nat) :
    Keeps f (Mem.mfreePageLoop memPool cnt vaddr) := by
  induction cnt generalizing vaddr with
  | zero => exact Keeps.pure _
  | succ cnt ih =>
    refine (Mem.keeps_addrV2p _).bind fun p => Keeps.read_bind fun s => ?_
    have hrest : Keeps f (do
        Mem.pfree p
        Mem.pageTablePteRemove vaddr
        Mem.mfreePageLoop memPool cnt ((vaddr + pgSize) % 2 ^ 32)) :=
      (h.pfree _).bind fun _ => (h.pageTablePteRemove _).bind fun _ => ih _
    cases memPool with
    | kernel => exact (Mem.keeps_assert _ _).bind fun _ => hrest
    | user => exact (Mem.keeps_assert _ _).bind fun _ => hrest

end OffFrames

/-! ### Virtual ranges -/

namespace OffRanges

variable (h : OffRanges f)
include h

theorem vaddrGet (pf : PoolFlags) (pgCnt : Nat) : Keeps f (Mem.vaddrGet pf pgCnt) := by
  intro s
  refine Mem.ensures_read_bind (Ensures.bind (Q := fun _ t => t = s)
    (Mem.ensures_ofPanic (fun _ _ => rfl) fun _ _ => trivial) fun bitIdxStart t ht => ?_)
  rw [ht]
  split
  · exact ensures_pure rfl
  · exact Ensures.bind (Q := fun _ _ => True)
      (Mem.ensures_ofPanic (fun _ _ => trivial) fun _ _ => trivial)
      fun btmp _ _ => h.range s pf btmp

theorem vaddrRemove (pf : PoolFlags) (vaddr pgCnt : Nat) :
    Keeps f (Mem.vaddrRemove pf vaddr pgCnt) :=
  Keeps.update (fun s btmp => h.range s pf btmp) fun _ => Keeps.pure _

theorem getAPageBit (pf : PoolFlags) (vaddr line : Nat) :
    Keeps f (Mem.getAPageBit pf vaddr line) := by
  intro s
  refine Mem.ensures_read_bind (Ensures.bind (Q := fun _ t => t = s)
    (Mem.ensures_read_bind (Mem.ensures_ofPanic (fun _ _ => rfl) fun _ _ => trivial))
    fun _ t ht => ?_)
  rw [ht]
  dsimp only
  split
  · exact Ensures.bind (Q := fun _ _ => True)
      (Mem.ensures_ofPanic (fun _ _ => trivial) fun _ _ => trivial)
      fun btmp _ _ => h.range s pf btmp
  · exact ((Mem.keeps_loadByte _).bind fun _ => h.storeByte _ _) s

end OffRanges

/-! ### Pages -/

namespace OffPages

variable (h : OffPages f)
include h

theorem mallocPage (pf : PoolFlags) (pgCnt : Nat) : Keeps f (Mem.mallocPage pf pgCnt) :=
  (Mem.keeps_assert _ _).bind fun _ => (h.toOffRanges.vaddrGet pf pgCnt).bind fun _ =>
    (Keeps.pure _).ite (h.mallocPageLoop _ _ _ _)

theorem mfreePage (pf : PoolFlags) (vaddr pgCnt : Nat) : Keeps f (Mem.mfreePage pf vaddr pgCnt) :=
  (Mem.keeps_assert _ _).bind fun _ => (Mem.keeps_addrV2p _).bind fun _ =>
    (Mem.keeps_assert _ _).bind fun _ => Keeps.read_bind fun _ =>
      (h.mfreePageLoop _ _ _).bind fun _ => h.toOffRanges.vaddrRemove _ _ _

theorem sysMallocLarge (pf : PoolFlags) (size : Nat) : Keeps f (Mem.sysMallocLarge pf size) := by
  refine (h.mallocPage _ _).bind fun a => Keeps.ite ?_ (Keeps.pure _)
  exact (h.memset _ _ _).bind fun _ => (h.storeWord _ _).bind fun _ =>
    (h.storeWord _ _).bind fun _ =>
    (h.storeWord _ _).bind fun _ => Keeps.pure _

theorem sysMallocArena (pf : PoolFlags) (desc : Nat) : Keeps f (Mem.sysMallocArena pf desc) := by
  refine (Mem.keeps_listEmpty _).bind fun empty => Keeps.ite ?_ (Keeps.pure _)
  refine (h.mallocPage _ _).bind fun a => (Keeps.pure _).ite ?_
  exact (h.memset _ _ _).bind fun _ => (h.storeWord _ _).bind fun _ =>
    (Mem.keeps_loadWord _).bind fun _ => (h.storeWord _ _).bind fun _ =>
      (h.storeWord _ _).bind fun _ => (h.sysMallocSplit _ _ _ _).bind fun _ => Keeps.pure _

theorem sysMallocSmall (pf : PoolFlags) (descs size : Nat) :
    Keeps f (Mem.sysMallocSmall pf descs size) :=
  (Mem.keeps_sysMallocDesc _ _ _ _).bind fun _ => (h.sysMallocArena _ _).bind fun _ =>
    (h.sysMallocBlock _).ite (Keeps.pure _)

theorem sysFreeSmall (pf : PoolFlags) (a b : Nat) : Keeps f (Mem.sysFreeSmall pf a b) :=
  (Mem.keeps_loadWord _).bind fun _ => (h.listAppend _ _).bind fun _ =>
    (Mem.keeps_loadWord _).bind fun _ => (h.storeWord _ _).bind fun _ =>
      (Mem.keeps_loadWord _).bind fun _ => (Mem.keeps_loadWord _).bind fun _ =>
        Keeps.ite ((h.sysFreeLoop _ _ _).bind fun _ => h.mfreePage _ _ _) (Keeps.pure _)

end OffPages

end OriginOS
