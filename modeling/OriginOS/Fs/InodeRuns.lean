import Mathlib.Data.List.Count
import OriginOS.Fs.Mount
import OriginOS.Lib.System

/-! Threads that open and close the inodes of a partition. `inode_open` looks an inode up in
`open_inodes`, and pushes it there only after it has waited in `sys_malloc`, twice, and in
`ide_read`; at these three points the thread may be switched out. `inode_close` runs with interrupts
disabled. -/

namespace OriginOS

open Lib

/-- Where a thread waits in `inode_open`; `inodeFound` is the address of the new inode. -/
inductive OpenPoint where
  | mallocInode (inodeNo : UInt32) (inodePos : InodePosition)
  | mallocBuf (inodeNo : UInt32) (inodePos : InodePosition) (inodeFound : Nat)
  | reading (inodeNo : UInt32) (inodePos : InodePosition) (inodeFound : Nat)
deriving DecidableEq, Repr

namespace OpenPoint

def inodeNo : OpenPoint → UInt32
  | mallocInode n _ => n
  | mallocBuf n _ _ => n
  | reading n _ _ => n

def inodePos : OpenPoint → InodePosition
  | mallocInode _ pos => pos
  | mallocBuf _ pos _ => pos
  | reading _ pos _ => pos

/-- The new inode, once it has been allocated. -/
def inodeFound : OpenPoint → Option Nat
  | mallocInode _ _ => none
  | mallocBuf _ _ a => some a
  | reading _ _ a => some a

end OpenPoint

/-- The inodes of a partition in memory: `open_inodes` lists their addresses from its head on, and
`held` the opens that have returned and have not been closed, with the number that was asked for. -/
structure InodeWorld where
  part : Partition
  disk : Disk
  memory : Nat → Inode
  openInodes : List Nat
  opening : Nat → Option OpenPoint
  held : List (Nat × UInt32)

/-- A thread calls `inode_open`, its `sys_malloc` returns (the inode, then the buffer), its
`ide_read` returns, or an inode is closed. -/
inductive InodeAct where
  | inodeOpen (thread : Nat) (inodeNo : UInt32)
  | mallocInode (thread inodeFound : Nat)
  | mallocBuf (thread : Nat)
  | read (thread : Nat)
  | inodeClose (inode : Nat × UInt32)
deriving DecidableEq, Repr

structure InodeWorld.Fresh (w : InodeWorld) (a : Nat) : Prop where
  closed : a ∉ w.openInodes
  pending : ∀ t p, w.opening t = some p → p.inodeFound ≠ some a
  held : ∀ n, (a, n) ∉ w.held

/-- `list_push` of the inode that was read, and the return of `inode_open`. -/
def InodeWorld.push (w : InodeWorld) (thread : Nat) (inodeNo : UInt32) (a : Nat) (inode : Inode) :
    InodeWorld :=
  { w with
    memory := Function.update w.memory a inode
    openInodes := a :: w.openInodes
    opening := Function.update w.opening thread none
    held := (a, inodeNo) :: w.held }

def inodeClose (h : Nat × UInt32) (w : InodeWorld) : InodeWorld :=
  let inode := w.memory h.1
  let iOpenCnts := inode.iOpenCnts - 1
  { w with
    memory := Function.update w.memory h.1 { inode with iOpenCnts }
    openInodes := if iOpenCnts = 0 then w.openInodes.erase h.1 else w.openInodes
    held := w.held.erase h }

def inodeExec (a : InodeAct) (w : InodeWorld) : Except Panic InodeWorld :=
  match a with
  | .inodeOpen t n =>
    match w.openInodes.find? fun a => (w.memory a).iNo = n with
    | some a => pure { w with
        memory := Function.update w.memory a
          { w.memory a with iOpenCnts := (w.memory a).iOpenCnts + 1 }
        held := (a, n) :: w.held }
    | none => do
      let inodePos ← inodeLocate w.part n
      pure { w with opening := Function.update w.opening t (some (.mallocInode n inodePos)) }
  | .mallocInode t a =>
    match w.opening t with
    | some (.mallocInode n pos) => pure { w with
        memory := Function.update w.memory a (Inode.ofBytes (fun _ => 0) 0)
        opening := Function.update w.opening t (some (.mallocBuf n pos a)) }
    | _ => pure w
  | .mallocBuf t =>
    match w.opening t with
    | some (.mallocBuf n pos a) => pure { w with
        opening := Function.update w.opening t (some (.reading n pos a)) }
    | _ => pure w
  | .read t =>
    match w.opening t with
    | some (.reading n pos a) => do
      let inode ← inodeRead pos w.disk
      pure (w.push t n a inode)
    | _ => pure w
  | .inodeClose h => pure (inodeClose h w)

def inodeGuard (w : InodeWorld) : InodeAct → Prop
  | .inodeOpen t _ => w.opening t = none
  | .mallocInode t a => (∃ n pos, w.opening t = some (.mallocInode n pos)) ∧ w.Fresh a
  | .mallocBuf t => ∃ n pos a, w.opening t = some (.mallocBuf n pos a)
  | .read t => ∃ n pos a, w.opening t = some (.reading n pos a)
  | .inodeClose h => h ∈ w.held

/-- Calls of `inode_open` and `inode_close` by any number of threads, when no inode is open at
first. -/
def inodeSystem : System InodeWorld InodeAct Panic where
  init w := w.openInodes = [] ∧ (∀ t, w.opening t = none) ∧ w.held = []
  guard := inodeGuard
  exec := inodeExec

/-! ### One inode for each number -/

/-- The opens of the number that have returned and have not been closed. -/
def InodeWorld.outstanding (w : InodeWorld) (n : UInt32) : Nat := w.held.countP fun h => h.2 = n

structure OneInode (w : InodeWorld) : Prop where
  unique : ∀ a ∈ w.openInodes, ∀ b ∈ w.openInodes, (w.memory a).iNo = (w.memory b).iNo → a = b
  counts : ∀ a ∈ w.openInodes,
    (w.memory a).iOpenCnts.toNat = w.outstanding (w.memory a).iNo
  listed : ∀ n, (∃ a ∈ w.openInodes, (w.memory a).iNo = n) ↔ 0 < w.outstanding n
  shared : ∀ a b n, (a, n) ∈ w.held → (b, n) ∈ w.held → a = b

/-- The condition on a call of `inode_open`: no other call for the number is between its look-up and
its `list_push`, the disk has the number in the inode's slot, and the count does not overflow. -/
def InodeAct.NoRace (w : InodeWorld) : InodeAct → Prop
  | .inodeOpen _ n => (∀ t p, w.opening t = some p → p.inodeNo ≠ n) ∧
    (∀ pos inode, inodeLocate w.part n = .ok pos → inodeRead pos w.disk = .ok inode →
      inode.iNo = n) ∧ w.outstanding n + 1 < 2 ^ 32
  | _ => True

structure InodeInv (w : InodeWorld) : Prop where
  nodup : w.openInodes.Nodup
  unique : ∀ a ∈ w.openInodes, ∀ b ∈ w.openInodes, (w.memory a).iNo = (w.memory b).iNo → a = b
  counts : ∀ a ∈ w.openInodes,
    (w.memory a).iOpenCnts.toNat = w.outstanding (w.memory a).iNo
  positive : ∀ a ∈ w.openInodes, 0 < w.outstanding (w.memory a).iNo
  held : ∀ h ∈ w.held, h.1 ∈ w.openInodes ∧ (w.memory h.1).iNo = h.2
  pending : ∀ t p, w.opening t = some p → (∀ a ∈ w.openInodes, (w.memory a).iNo ≠ p.inodeNo) ∧
    ∀ inode, inodeRead p.inodePos w.disk = .ok inode → inode.iNo = p.inodeNo
  alone : ∀ t t' p p', w.opening t = some p → w.opening t' = some p' → p.inodeNo = p'.inodeNo →
    t = t'
  found : ∀ t p a, w.opening t = some p → p.inodeFound = some a → a ∉ w.openInodes
  foundAlone : ∀ t t' p p' a, w.opening t = some p → w.opening t' = some p' →
    p.inodeFound = some a → p'.inodeFound = some a → t = t'

/-! ### The steps -/

theorem update_of_mem {memory : Nat → Inode} {l : List Nat} {a b : Nat} {inode : Inode}
    (ha : a ∉ l) (hb : b ∈ l) : Function.update memory a inode b = memory b := by
  refine Function.update_of_ne ?_ ..
  rintro rfl
  exact ha hb

namespace InodeInv

variable {w : InodeWorld}

theorem init (h : inodeSystem.init w) : InodeInv w := by
  obtain ⟨hopen, hidle, hheld⟩ := h
  constructor <;> simp [hopen, hidle, hheld]

theorem oneInode (h : InodeInv w) : OneInode w := by
  refine ⟨h.unique, h.counts, fun n => ?_, fun a b n ha hb => ?_⟩
  · constructor
    · rintro ⟨a, ha, rfl⟩
      exact h.positive a ha
    · intro hpos
      obtain ⟨x, hx, hn⟩ := List.countP_pos_iff.mp hpos
      obtain ⟨hmem, hno⟩ := h.held x hx
      exact ⟨x.1, hmem, hno.trans (of_decide_eq_true hn)⟩
  · obtain ⟨hmem, hno⟩ := h.held _ ha
    obtain ⟨hmem', hno'⟩ := h.held _ hb
    exact h.unique a hmem b hmem' (hno.trans hno'.symm)

theorem outstanding_eq_zero (h : InodeInv w) {n : UInt32}
    (hnone : ∀ a ∈ w.openInodes, (w.memory a).iNo ≠ n) : w.outstanding n = 0 := by
  by_contra hne
  obtain ⟨a, ha, hno⟩ := (h.oneInode.listed n).mpr (Nat.pos_of_ne_zero hne)
  exact hnone a ha hno

theorem found_again (h : InodeInv w) {a : Nat} (ha : a ∈ w.openInodes)
    (hmax : w.outstanding (w.memory a).iNo + 1 < 2 ^ 32) :
    InodeInv { w with
      memory := Function.update w.memory a
        { w.memory a with iOpenCnts := (w.memory a).iOpenCnts + 1 }
      held := (a, (w.memory a).iNo) :: w.held } := by
  have hno : ∀ b, (Function.update w.memory a
      { w.memory a with iOpenCnts := (w.memory a).iOpenCnts + 1 } b).iNo = (w.memory b).iNo := by
    intro b
    rw [Function.update_apply]
    split
    · next hb => rw [hb]
    · rfl
  constructor <;> simp only [hno]
  · exact h.nodup
  · exact h.unique
  · intro b hb
    have hold := h.counts b hb
    simp only [InodeWorld.outstanding, List.countP_cons, decide_eq_true_eq, Function.update_apply]
    by_cases hab : b = a
    · subst hab
      have hval : ((w.memory b).iOpenCnts + 1).toNat = (w.memory b).iOpenCnts.toNat + 1 := by
        rw [UInt32.toNat_add, UInt32.toNat_one]
        omega
      rw [if_pos rfl, if_pos rfl, hval, hold]
      rfl
    · rw [if_neg hab, if_neg fun heq => hab (h.unique b hb a ha heq.symm), hold]
      rfl
  · intro b hb
    have hpos := h.positive b hb
    simp only [InodeWorld.outstanding, List.countP_cons] at hpos ⊢
    omega
  · intro x hx
    rcases List.mem_cons.mp hx with rfl | hx
    · exact ⟨ha, rfl⟩
    · exact h.held x hx
  · exact h.pending
  · exact h.alone
  · exact h.found
  · exact h.foundAlone

theorem set_opening (h : InodeInv w) {t : Nat} {p : OpenPoint}
    (hnone : ∀ a ∈ w.openInodes, (w.memory a).iNo ≠ p.inodeNo)
    (hread : ∀ inode, inodeRead p.inodePos w.disk = .ok inode → inode.iNo = p.inodeNo)
    (halone : ∀ t' p', t' ≠ t → w.opening t' = some p' → p'.inodeNo ≠ p.inodeNo)
    (hfound : ∀ a, p.inodeFound = some a → a ∉ w.openInodes ∧
      ∀ t' p', t' ≠ t → w.opening t' = some p' → p'.inodeFound ≠ some a) :
    InodeInv { w with opening := Function.update w.opening t (some p) } := by
  have hcases : ∀ t' p', Function.update w.opening t (some p) t' = some p' →
      t' = t ∧ p' = p ∨ t' ≠ t ∧ w.opening t' = some p' := by
    intro t' p' hp'
    rw [Function.update_apply] at hp'
    split at hp'
    · next heq => exact .inl ⟨heq, (Option.some.inj hp').symm⟩
    · next hne => exact .inr ⟨hne, hp'⟩
  refine { h with pending := ?_, alone := ?_, found := ?_, foundAlone := ?_ }
  · intro t' p' hp'
    rcases hcases t' p' hp' with ⟨rfl, rfl⟩ | ⟨-, hold⟩
    · exact ⟨hnone, hread⟩
    · exact h.pending t' p' hold
  · intro t₁ t₂ p₁ p₂ h₁ h₂ heq
    rcases hcases t₁ p₁ h₁ with ⟨rfl, rfl⟩ | ⟨hne₁, hold₁⟩ <;>
      rcases hcases t₂ p₂ h₂ with ⟨rfl, rfl⟩ | ⟨hne₂, hold₂⟩
    · rfl
    · exact absurd heq.symm (halone t₂ p₂ hne₂ hold₂)
    · exact absurd heq (halone t₁ p₁ hne₁ hold₁)
    · exact h.alone t₁ t₂ p₁ p₂ hold₁ hold₂ heq
  · intro t' p' a hp' ha
    rcases hcases t' p' hp' with ⟨rfl, rfl⟩ | ⟨-, hold⟩
    · exact (hfound a ha).1
    · exact h.found t' p' a hold ha
  · intro t₁ t₂ p₁ p₂ a h₁ h₂ ha₁ ha₂
    rcases hcases t₁ p₁ h₁ with ⟨rfl, rfl⟩ | ⟨hne₁, hold₁⟩ <;>
      rcases hcases t₂ p₂ h₂ with ⟨rfl, rfl⟩ | ⟨hne₂, hold₂⟩
    · rfl
    · exact absurd ha₂ ((hfound a ha₁).2 t₂ p₂ hne₂ hold₂)
    · exact absurd ha₁ ((hfound a ha₂).2 t₁ p₁ hne₁ hold₁)
    · exact h.foundAlone t₁ t₂ p₁ p₂ a hold₁ hold₂ ha₁ ha₂

theorem set_memory (h : InodeInv w) {a : Nat} (ha : a ∉ w.openInodes) (inode : Inode) :
    InodeInv { w with memory := Function.update w.memory a inode } := by
  have hmem : ∀ b ∈ w.openInodes, Function.update w.memory a inode b = w.memory b :=
    fun b hb => update_of_mem ha hb
  refine ⟨h.nodup, fun b hb c hc => ?_, fun b hb => ?_, fun b hb => ?_, fun x hx => ?_,
    fun t p hp => ⟨fun b hb => ?_, ?_⟩, h.alone, h.found, h.foundAlone⟩
  · simp only [hmem b hb, hmem c hc]
    exact h.unique b hb c hc
  · simp only [hmem b hb]
    exact h.counts b hb
  · simp only [hmem b hb]
    exact h.positive b hb
  · obtain ⟨hx₁, hx₂⟩ := h.held x hx
    simp only [hmem _ hx₁]
    exact ⟨hx₁, hx₂⟩
  · simp only [hmem b hb]
    exact (h.pending t p hp).1 b hb
  · exact (h.pending t p hp).2

theorem push (h : InodeInv w) {t a : Nat} {p : OpenPoint} {inode : Inode}
    (hp : w.opening t = some p)
    (ha : p.inodeFound = some a) (hread : inodeRead p.inodePos w.disk = .ok inode) :
    InodeInv (w.push t p.inodeNo a inode) := by
  have hfresh := h.found t p a hp ha
  have hmem : ∀ b ∈ w.openInodes, Function.update w.memory a inode b = w.memory b :=
    fun b hb => update_of_mem hfresh hb
  have hself : Function.update w.memory a inode a = inode := Function.update_self ..
  obtain ⟨hnone, hdisk⟩ := h.pending t p hp
  have hno := hdisk inode hread
  have hcnt : inode.iOpenCnts = 1 := by
    obtain ⟨buf, -, hpure⟩ := bind_eq_ok.mp hread
    obtain rfl := Except.ok.inj hpure
    rfl
  have hzero := h.outstanding_eq_zero hnone
  have hother : ∀ n, n ≠ p.inodeNo → (w.push t p.inodeNo a inode).outstanding n =
    w.outstanding n := by
    intro n hn
    simp [InodeWorld.outstanding, InodeWorld.push, Ne.symm hn]
  have hown : (w.push t p.inodeNo a inode).outstanding p.inodeNo = 1 := by
    simp only [InodeWorld.outstanding, InodeWorld.push] at hzero ⊢
    simp [hzero]
  have hrest : ∀ t' p', Function.update w.opening t none t' = some p' →
      t' ≠ t ∧ w.opening t' = some p' := by
    intro t' p' hp'
    rw [Function.update_apply] at hp'
    split at hp'
    · exact nomatch hp'
    · next hne => exact ⟨hne, hp'⟩
  constructor
  · exact List.nodup_cons.mpr ⟨hfresh, h.nodup⟩
  · intro b hb c hc heq
    simp only [InodeWorld.push] at heq
    rcases List.mem_cons.mp hb with hba | hb <;> rcases List.mem_cons.mp hc with hca | hc
    · exact hba.trans hca.symm
    · rw [hba, hself, hmem c hc, hno] at heq
      exact absurd heq.symm (hnone c hc)
    · rw [hca, hself, hmem b hb, hno] at heq
      exact absurd heq (hnone b hb)
    · rw [hmem b hb, hmem c hc] at heq
      exact h.unique b hb c hc heq
  · intro b hb
    show (Function.update w.memory a inode b).iOpenCnts.toNat =
      (w.push t p.inodeNo a inode).outstanding (Function.update w.memory a inode b).iNo
    rcases List.mem_cons.mp hb with rfl | hb
    · rw [hself, hno, hown, hcnt]
      rfl
    · rw [hmem b hb, hother _ (hnone b hb)]
      exact h.counts b hb
  · intro b hb
    show 0 < (w.push t p.inodeNo a inode).outstanding (Function.update w.memory a inode b).iNo
    rcases List.mem_cons.mp hb with rfl | hb
    · rw [hself, hno, hown]
      decide
    · rw [hmem b hb, hother _ (hnone b hb)]
      exact h.positive b hb
  · intro x hx
    show x.1 ∈ a :: w.openInodes ∧ (Function.update w.memory a inode x.1).iNo = x.2
    rcases List.mem_cons.mp hx with rfl | hx
    · exact ⟨List.mem_cons_self, by rw [hself, hno]⟩
    · obtain ⟨hx₁, hx₂⟩ := h.held x hx
      exact ⟨List.mem_cons_of_mem _ hx₁, by rw [hmem _ hx₁, hx₂]⟩
  · intro t' p' hp'
    obtain ⟨hne, hold⟩ := hrest t' p' hp'
    refine ⟨fun b hb => ?_, (h.pending t' p' hold).2⟩
    show (Function.update w.memory a inode b).iNo ≠ p'.inodeNo
    rcases List.mem_cons.mp hb with rfl | hb
    · rw [hself, hno]
      exact fun heq => hne (h.alone t' t p' p hold hp heq.symm)
    · rw [hmem b hb]
      exact (h.pending t' p' hold).1 b hb
  · intro t₁ t₂ p₁ p₂ h₁ h₂ heq
    exact h.alone t₁ t₂ p₁ p₂ (hrest t₁ p₁ h₁).2 (hrest t₂ p₂ h₂).2 heq
  · intro t' p' b hp' hb hmem'
    obtain ⟨hne, hold⟩ := hrest t' p' hp'
    rcases List.mem_cons.mp hmem' with rfl | hmem'
    · exact hne (h.foundAlone t' t p' p b hold hp hb ha)
    · exact h.found t' p' b hold hb hmem'
  · intro t₁ t₂ p₁ p₂ b h₁ h₂ hb₁ hb₂
    exact h.foundAlone t₁ t₂ p₁ p₂ b (hrest t₁ p₁ h₁).2 (hrest t₂ p₂ h₂).2 hb₁ hb₂

theorem outstanding_inodeClose {x : Nat × UInt32} (hx : x ∈ w.held) (n : UInt32) :
    (inodeClose x w).outstanding n = if n = x.2 then w.outstanding n - 1 else w.outstanding n := by
  simp only [InodeWorld.outstanding, inodeClose, List.countP_erase, hx, true_and, decide_eq_true_eq]
  by_cases hn : x.2 = n
  · rw [if_pos hn, if_pos hn.symm]
  · rw [if_neg hn, if_neg (Ne.symm hn), Nat.sub_zero]

theorem iNo_inodeClose (x : Nat × UInt32) (b : Nat) :
    ((inodeClose x w).memory b).iNo = (w.memory b).iNo := by
  simp only [inodeClose, Function.update_apply]
  split
  · next hb => rw [hb]
  · rfl

theorem iOpenCnts_sub (h : InodeInv w) {x : Nat × UInt32} (hx : x ∈ w.held) :
    ((w.memory x.1).iOpenCnts - 1).toNat = w.outstanding x.2 - 1 := by
  obtain ⟨hmem, hno⟩ := h.held x hx
  have hpos := h.positive _ hmem
  have hcnt := h.counts _ hmem
  rw [hno] at hpos hcnt
  have hle : (1 : UInt32) ≤ (w.memory x.1).iOpenCnts :=
    UInt32.le_iff_toNat_le.mpr (by rw [hcnt, UInt32.toNat_one]; exact hpos)
  rw [UInt32.toNat_sub_of_le _ _ hle, hcnt, UInt32.toNat_one]

theorem mem_inodeClose (h : InodeInv w) {x : Nat × UInt32} (hx : x ∈ w.held) {b : Nat} :
    b ∈ (inodeClose x w).openInodes ↔
      b ∈ w.openInodes ∧ (b = x.1 → 1 < w.outstanding x.2) := by
  have hval := h.iOpenCnts_sub hx
  by_cases hzero : (w.memory x.1).iOpenCnts - 1 = 0
  · have hlast : ¬ 1 < w.outstanding x.2 := by
      rw [← UInt32.toNat_inj, hval, UInt32.toNat_zero] at hzero
      omega
    simp only [inodeClose, if_pos hzero]
    rw [h.nodup.mem_erase_iff]
    tauto
  · have hmore : 1 < w.outstanding x.2 := by
      rw [← UInt32.toNat_inj, hval, UInt32.toNat_zero] at hzero
      omega
    simp only [inodeClose, if_neg hzero]
    tauto

theorem close (h : InodeInv w) {x : Nat × UInt32} (hx : x ∈ w.held) :
    InodeInv (inodeClose x w) := by
  obtain ⟨hmem, hno⟩ := h.held x hx
  have hout := outstanding_inodeClose hx
  have hiNo := iNo_inodeClose (w := w) x
  have hsub : ∀ b ∈ (inodeClose x w).openInodes, b ∈ w.openInodes :=
    fun b hb => ((h.mem_inodeClose hx).mp hb).1
  have hother : ∀ b ∈ w.openInodes, b ≠ x.1 → (w.memory b).iNo ≠ x.2 :=
    fun b hb hne heq => hne (h.unique b hb x.1 hmem (heq.trans hno.symm))
  constructor
  · simp only [inodeClose]
    split
    · exact h.nodup.erase x.1
    · exact h.nodup
  · intro b hb c hc heq
    rw [hiNo, hiNo] at heq
    exact h.unique b (hsub b hb) c (hsub c hc) heq
  · intro b hb
    rw [hiNo, hout]
    by_cases hbx : b = x.1
    · subst hbx
      rw [hno, if_pos rfl]
      simp only [inodeClose, Function.update_self]
      exact h.iOpenCnts_sub hx
    · rw [if_neg (hother b (hsub b hb) hbx)]
      simp only [inodeClose, Function.update_of_ne hbx]
      exact h.counts b (hsub b hb)
  · intro b hb
    rw [hiNo, hout]
    by_cases hbx : b = x.1
    · have hstay := ((h.mem_inodeClose hx).mp hb).2 hbx
      rw [hbx, hno, if_pos rfl]
      omega
    · rw [if_neg (hother b (hsub b hb) hbx)]
      exact h.positive b (hsub b hb)
  · intro y hy
    obtain ⟨hymem, hyno⟩ := h.held y (List.mem_of_mem_erase hy)
    refine ⟨(h.mem_inodeClose hx).mpr ⟨hymem, fun hyx => ?_⟩, by rw [hiNo, hyno]⟩
    have hpos : 0 < (inodeClose x w).outstanding y.2 :=
      List.countP_pos_iff.mpr ⟨y, hy, decide_eq_true rfl⟩
    rw [hout, if_pos (by rw [← hyno, hyx, hno]), ← hyno, hyx, hno] at hpos
    omega
  · intro t p hp
    refine ⟨fun b hb => ?_, (h.pending t p hp).2⟩
    rw [hiNo]
    exact (h.pending t p hp).1 b (hsub b hb)
  · exact h.alone
  · exact fun t p a hp ha hmem' => h.found t p a hp ha (hsub a hmem')
  · exact h.foundAlone

theorem step (h : InodeInv w) {a : InodeAct} {w' : InodeWorld} (hcond : a.NoRace w)
    (hs : inodeSystem.Step w a w') : InodeInv w' := by
  obtain ⟨hguard, hexec⟩ := hs
  cases a with
  | inodeOpen t n =>
    obtain ⟨hidle, hdisk, hmax⟩ := hcond
    simp only [inodeSystem, inodeExec] at hexec
    split at hexec
    · next a hfind =>
      obtain rfl := Except.ok.inj hexec
      obtain rfl : (w.memory a).iNo = n := by simpa using List.find?_some hfind
      exact h.found_again (List.mem_of_find?_eq_some hfind) hmax
    · next hfind =>
      obtain ⟨pos, hpos, hpure⟩ := bind_eq_ok.mp hexec
      obtain rfl := Except.ok.inj hpure
      refine h.set_opening (fun a ha => ?_) (fun inode hread => hdisk pos inode hpos hread)
        (fun t' p' _ hp' => hidle t' p' hp') fun a ha => nomatch ha
      exact fun hno => List.find?_eq_none.mp hfind a ha (decide_eq_true hno)
  | mallocInode t a =>
    obtain ⟨⟨n, pos, hp⟩, hfresh⟩ := hguard
    simp only [inodeSystem, inodeExec, hp] at hexec
    obtain rfl := Except.ok.inj hexec
    obtain ⟨hnone, hread⟩ := h.pending t _ hp
    refine (h.set_opening (t := t) (p := .mallocBuf n pos a) hnone hread
      (fun t' p' hne hp' heq => ?_) fun b hb => ?_).set_memory hfresh.closed _
    · exact hne (h.alone t' t p' _ hp' hp heq)
    · obtain rfl := Option.some.inj hb
      exact ⟨hfresh.closed, fun t' p' _ hp' => hfresh.pending t' p' hp'⟩
  | mallocBuf t =>
    obtain ⟨n, pos, a, hp⟩ := hguard
    simp only [inodeSystem, inodeExec, hp] at hexec
    obtain rfl := Except.ok.inj hexec
    obtain ⟨hnone, hread⟩ := h.pending t _ hp
    refine h.set_opening (p := .reading n pos a) hnone hread (fun t' p' hne hp' heq => ?_)
      fun b hb => ?_
    · exact hne (h.alone t' t p' _ hp' hp heq)
    · exact ⟨h.found t _ b hp hb, fun t' p' hne hp' hb' =>
        hne (h.foundAlone t' t p' _ b hp' hp hb' hb)⟩
  | read t =>
    obtain ⟨n, pos, a, hp⟩ := hguard
    simp only [inodeSystem, inodeExec, hp] at hexec
    obtain ⟨inode, hread, hpure⟩ := bind_eq_ok.mp hexec
    obtain rfl := Except.ok.inj hpure
    exact h.push hp rfl hread
  | inodeClose x =>
    obtain rfl := Except.ok.inj hexec
    exact h.close hguard

end InodeInv

/-! ### A call that is not interrupted -/

/-- The partition with its open inodes, as `inode_open` sees it. -/
def InodeWorld.toPartition (w : InodeWorld) : Partition :=
  { w.part with openInodes := w.openInodes.map w.memory }

section Alone

variable {w : InodeWorld} {t a : Nat} {n : UInt32} {pos : InodePosition} {inode : Inode}
  {tr : List (InodeWorld × InodeAct)}

theorem openFound_map {memory : Nat → Inode} {l : List Nat} (hl : l.Nodup) :
    openFound n (l.map memory) = (l.find? fun a => (memory a).iNo = n).map fun a =>
      let inode := { memory a with iOpenCnts := (memory a).iOpenCnts + 1 }
      (inode, l.map (Function.update memory a inode)) := by
  induction l with
  | nil => rfl
  | cons b l ih =>
    obtain ⟨hb, hl⟩ := List.nodup_cons.mp hl
    rw [List.map_cons, openFound, List.find?_cons]
    by_cases hno : (memory b).iNo = n
    · have hrest : ∀ inode, l.map (Function.update memory b inode) = l.map memory :=
        fun inode => List.map_congr_left fun c hc => update_of_mem hb hc
      simp [hno, hrest]
    · rw [if_neg hno, ih hl]
      simp only [hno, decide_false]
      cases hfind : l.find? fun a => (memory a).iNo = n with
      | none => rfl
      | some c =>
        have hne : b ≠ c := fun heq => hb (heq ▸ List.mem_of_find?_eq_some hfind)
        simp [Function.update_of_ne hne]

theorem run_of_missed (run : inodeSystem.Run tr w)
    (hmissed : w.opening t = some (.mallocInode n pos))
    (hread : inodeRead pos w.disk = .ok inode) (hfresh : w.Fresh a) :
    ∃ tr', inodeSystem.Run (tr' ++ tr) (w.push t n a inode) ∧ ∀ p ∈ tr', p.2.NoRace p.1 := by
  have hmalloc : inodeSystem.Step w (.mallocInode t a) { w with
      memory := Function.update w.memory a (Inode.ofBytes (fun _ => 0) 0)
      opening := Function.update w.opening t (some (.mallocBuf n pos a)) } :=
    ⟨⟨⟨n, pos, hmissed⟩, hfresh⟩, by simp only [inodeSystem, inodeExec, hmissed]; rfl⟩
  have hbuf : inodeSystem.Step { w with
      memory := Function.update w.memory a (Inode.ofBytes (fun _ => 0) 0)
      opening := Function.update w.opening t (some (.mallocBuf n pos a)) } (.mallocBuf t) { w with
      memory := Function.update w.memory a (Inode.ofBytes (fun _ => 0) 0)
      opening := Function.update w.opening t (some (.reading n pos a)) } :=
    ⟨⟨n, pos, a, Function.update_self ..⟩,
      by simp only [inodeSystem, inodeExec, Function.update_self, Function.update_idem]; rfl⟩
  have hlast : inodeSystem.Step { w with
      memory := Function.update w.memory a (Inode.ofBytes (fun _ => 0) 0)
      opening := Function.update w.opening t (some (.reading n pos a)) } (.read t)
      (w.push t n a inode) :=
    ⟨⟨n, pos, a, Function.update_self ..⟩,
      by simp only [inodeSystem, inodeExec, Function.update_self, hread, ok_bind, InodeWorld.push,
        Function.update_idem]; rfl⟩
  exact ⟨[_, _, _], ((run.next hmalloc).next hbuf).next hlast, by simp [InodeAct.NoRace]⟩

theorem step_missed (hidle : w.opening t = none)
    (hnone : (w.openInodes.find? fun a => (w.memory a).iNo = n) = none)
    (hpos : inodeLocate w.part n = .ok pos) : inodeSystem.Step w (.inodeOpen t n)
      { w with opening := Function.update w.opening t (some (.mallocInode n pos)) } :=
  ⟨hidle, by simp only [inodeSystem, inodeExec, hnone, hpos]; rfl⟩

theorem step_found (hidle : w.opening t = none)
    (hfind : (w.openInodes.find? fun a => (w.memory a).iNo = n) = some a) :
    inodeSystem.Step w (.inodeOpen t n) { w with
      memory := Function.update w.memory a
        { w.memory a with iOpenCnts := (w.memory a).iOpenCnts + 1 }
      held := (a, n) :: w.held } :=
  ⟨hidle, by simp only [inodeSystem, inodeExec, hfind]; rfl⟩

theorem InodeWorld.Fresh.missed (h : w.Fresh a) : InodeWorld.Fresh
    { w with opening := Function.update w.opening t (some (.mallocInode n pos)) } a := by
  refine ⟨h.closed, fun t' p hp => ?_, h.held⟩
  simp only [Function.update_apply] at hp
  split at hp
  · obtain rfl := Option.some.inj hp
    exact nofun
  · exact h.pending t' p hp

theorem InodeWorld.Fresh.push {b : Nat} (h : w.Fresh a) (hne : a ≠ b) :
    (w.push t n b inode).Fresh a := by
  refine ⟨List.not_mem_cons_of_ne_of_not_mem hne h.closed, fun t' p hp => ?_, fun m => ?_⟩
  · simp only [InodeWorld.push, Function.update_apply] at hp
    split at hp
    · exact nomatch hp
    · exact h.pending t' p hp
  · refine List.not_mem_cons_of_ne_of_not_mem (fun heq => hne ?_) (h.held m)
    exact congrArg Prod.fst heq

theorem run_missed (run : inodeSystem.Run tr w) (hidle : w.opening t = none)
    (hnone : (w.openInodes.find? fun a => (w.memory a).iNo = n) = none)
    (hpos : inodeLocate w.part n = .ok pos) (hread : inodeRead pos w.disk = .ok inode)
    (hfresh : w.Fresh a) : ∃ tr', inodeSystem.Run (tr' ++ (w, .inodeOpen t n) :: tr)
      (w.push t n a inode) ∧ ∀ p ∈ tr', p.2.NoRace p.1 := by
  have hlast := run_of_missed (run.next (step_missed hidle hnone hpos)) (Function.update_self ..)
    hread hfresh.missed
  simpa only [InodeWorld.push, Function.update_idem] using hlast

theorem run_inodeOpen {part' : Partition} (run : inodeSystem.Run tr w) (hidle : w.opening t = none)
    (hnodup : w.openInodes.Nodup) (hfresh : w.Fresh a)
    (hopen : inodeOpen w.toPartition n w.disk = .ok (inode, part')) :
    ∃ tr' w' b, inodeSystem.Run (tr' ++ (w, .inodeOpen t n) :: tr) w' ∧ w'.toPartition = part' ∧
      w'.memory b = inode ∧ w'.held = (b, n) :: w.held ∧ ∀ p ∈ tr', p.2.NoRace p.1 := by
  simp only [inodeOpen, InodeWorld.toPartition, openFound_map hnodup] at hopen
  cases hfind : w.openInodes.find? fun a => (w.memory a).iNo = n with
  | some b =>
    simp only [hfind, Option.map_some] at hopen
    obtain ⟨rfl, rfl⟩ := Prod.mk.inj (Except.ok.inj hopen)
    exact ⟨[], _, b, run.next (step_found hidle hfind), rfl, Function.update_self .., rfl, by simp⟩
  | none =>
    simp only [hfind, Option.map_none] at hopen
    obtain ⟨pos, hpos, hrest⟩ := bind_eq_ok.mp hopen
    obtain ⟨inode', hread, hpure⟩ := bind_eq_ok.mp hrest
    obtain ⟨rfl, rfl⟩ := Prod.mk.inj (Except.ok.inj hpure)
    obtain ⟨tr', hlast, hno⟩ := run_missed run hidle hfind hpos hread hfresh
    refine ⟨tr', _, a, hlast, ?_, Function.update_self .., rfl, hno⟩
    have hrest : w.openInodes.map (Function.update w.memory a inode') =
        w.openInodes.map w.memory :=
      List.map_congr_left fun c hc => update_of_mem hfresh.closed hc
    simp [InodeWorld.toPartition, InodeWorld.push, hrest]

end Alone

/-! ### Runs -/

def InodeWorld.closed (part : Partition) (disk : Disk) : InodeWorld where
  part := part
  disk := disk
  memory _ := Inode.ofBytes (fun _ => 0) 0
  openInodes := []
  opening _ := none
  held := []

namespace InodeWorld

variable {part : Partition} {disk : Disk} {n : UInt32} {pos : InodePosition} {inode : Inode}

theorem closed_run (part : Partition) (disk : Disk) : inodeSystem.Run [] (closed part disk) :=
  .start ⟨rfl, fun _ => rfl, rfl⟩

theorem closed_fresh {a : Nat} : (closed part disk).Fresh a :=
  ⟨List.not_mem_nil, nofun, fun _ => List.not_mem_nil⟩

theorem exists_run_twice (hpos : inodeLocate part n = .ok pos)
    (hread : inodeRead pos disk = .ok inode)
    (hno : inode.iNo = n) : ∃ tr w,
      inodeSystem.Run tr w ∧ w.held = [(0, n), (0, n)] ∧ ∀ p ∈ tr, p.2.NoRace p.1 := by
  have hdisk : ∀ pos' inode', inodeLocate part n = .ok pos' → inodeRead pos' disk = .ok inode' →
      inode'.iNo = n := by
    intro pos' inode' hpos' hread'
    obtain rfl := Except.ok.inj (hpos.symm.trans hpos')
    obtain rfl := Except.ok.inj (hread.symm.trans hread')
    exact hno
  obtain ⟨tr, run, hcond⟩ :=
    run_missed (t := 0) (closed_run part disk) rfl rfl hpos hread (closed_fresh (a := 0))
  have hfind : (((closed part disk).push 0 n 0 inode).openInodes.find? fun a =>
      (((closed part disk).push 0 n 0 inode).memory a).iNo = n) = some 0 := by
    simp [push, closed, hno]
  have hidle : ∀ t, ((closed part disk).push 0 n 0 inode).opening t = none := by
    simp [push, closed]
  have hout : ((closed part disk).push 0 n 0 inode).outstanding n = 1 := by
    simp [outstanding, push, closed]
  refine ⟨_, _, run.next (step_found (hidle 1) hfind), rfl, ?_⟩
  simp only [List.mem_cons, List.mem_append, List.mem_nil_iff, or_false]
  rintro p (rfl | hp | rfl)
  · exact ⟨fun t p hp => absurd ((hidle t).symm.trans hp) nofun, hdisk, by rw [hout]; decide⟩
  · exact hcond p hp
  · exact ⟨nofun, hdisk, Nat.one_lt_two_pow (by decide)⟩

theorem exists_run_race (hpos : inodeLocate part n = .ok pos)
    (hread : inodeRead pos disk = .ok inode) : ∃ w, inodeSystem.Reachable w ∧ ¬ OneInode w := by
  have first := (closed_run part disk).next (step_missed (t := 0) rfl rfl hpos)
  obtain ⟨tr, run, -⟩ := run_missed (t := 1) first rfl rfl hpos hread (closed_fresh (a := 1)).missed
  obtain ⟨tr', run', -⟩ := run_of_missed run (t := 0) (n := n) rfl hread
    ((closed_fresh (a := 0)).missed.push (by decide))
  refine ⟨_, ⟨_, run'⟩, fun hone => ?_⟩
  have heq := hone.unique 0 (by simp [push]) 1 (by simp [push]) (by simp [push])
  exact absurd heq (by decide)

theorem root_read (h : LaidOut part) (pad : Nat → UInt8) (disk : Disk) : ∃ pos inode,
    inodeLocate part 0 = .ok pos ∧
      inodeRead pos (formatted part.startLba part.secCnt pad disk) = .ok inode ∧ inode.iNo = 0 := by
  obtain ⟨pos, hpos, hread⟩ := @inodeRead_ok part (formatted part.startLba part.secCnt pad disk) 0
    h.inodeTable_le (by decide)
  refine ⟨pos, _, hpos, hread, ?_⟩
  simp only [inodeSlot, UInt32.toNat_zero, Nat.mul_zero, Nat.add_zero, h.sb, h.accepted.inode_read]

end InodeWorld

/-- In every run in which no call of `inode_open` meets another one for the same number, there is
one inode for each number that is open. -/
theorem one_inode {tr : List (InodeWorld × InodeAct)} {w : InodeWorld} (run : inodeSystem.Run tr w)
    (hcond : ∀ p ∈ tr, p.2.NoRace p.1) : ∀ u ∈ System.states tr w, OneInode u := by
  intro u hu
  obtain ⟨tr', run', hsub⟩ := run.of_mem_states hu
  exact (run'.invariant_of (C := fun w a => a.NoRace w) (fun _ => InodeInv.init)
    (fun _ _ _ hi ha hs => hi.step ha hs) fun p hp => hcond p (hsub p hp)).oneInode

/-- Two threads open the root directory one after the other. -/
theorem one_inode_root : ∃ tr w, inodeSystem.Run tr w ∧ w.held = [(0, 0), (0, 0)] ∧
    ∀ u ∈ System.states tr w, OneInode u := by
  let part := { Partition.recorded "sdb1" 2048 20000 with sb := superBlock 2048 20000 }
  have hlaid : LaidOut part := ⟨by decide, rfl⟩
  obtain ⟨pos, inode, hpos, hread, hno⟩ :=
    InodeWorld.root_read hlaid (fun _ => 0) fun _ => 0
  obtain ⟨tr, w, run, hheld, hcond⟩ := InodeWorld.exists_run_twice hpos hread hno
  exact ⟨tr, w, run, hheld, one_inode run hcond⟩

/-- Two threads open it at the same time, and each gets an inode of its own. -/
theorem one_inode_fails : ∃ w, inodeSystem.Reachable w ∧ ¬ OneInode w := by
  let part := { Partition.recorded "sdb1" 2048 20000 with sb := superBlock 2048 20000 }
  have hlaid : LaidOut part := ⟨by decide, rfl⟩
  obtain ⟨pos, inode, hpos, hread, -⟩ :=
    InodeWorld.root_read hlaid (fun _ => 0) fun _ => 0
  exact InodeWorld.exists_run_race hpos hread

end OriginOS
