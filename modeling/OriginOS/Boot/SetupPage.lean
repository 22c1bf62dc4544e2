import OriginOS.Lib.Paging
import OriginOS.Lib.X86

/-! `setup_page` of `boot/loader_func.S`, which builds the page directory and the first page table
before paging is switched on, so that its addresses are physical ones. -/

namespace OriginOS.Boot

open Lib Lib.X86

def pageDirTablePos : UInt32 := 0x100000

def pgAttr : UInt32 := 0b111

def clearPageDir : List Instr := [.movByte ⟨some .esi, none, pageDirTablePos⟩ 0, .inc .esi]

/-- The three entries that are set one by one. -/
def createPde : List Instr := [
  .mov (.reg .eax) (.imm (pageDirTablePos + 0x1000)),
  .or (.reg .eax) (.imm pgAttr),
  .mov (.mem ⟨none, none, pageDirTablePos + 0x0⟩) (.reg .eax),
  .mov (.mem ⟨none, none, pageDirTablePos + 0xc00⟩) (.reg .eax),
  .sub (.reg .eax) (.imm 0x1000),
  .mov (.mem ⟨none, none, pageDirTablePos + 4092⟩) (.reg .eax),
  .mov (.reg .ebx) (.imm (pageDirTablePos + 0x1000)),
  .mov (.reg .edx) (.imm pgAttr),
  .mov (.reg .esi) (.imm 0),
  .mov (.reg .ecx) (.imm 256)]

def createPte : List Instr := [
  .mov (.mem ⟨some .ebx, some .esi, 0⟩) (.reg .edx),
  .add (.reg .edx) (.imm 4096),
  .inc .esi]

def createKernelPde : List Instr := [
  .mov (.mem ⟨some .ebx, some .esi, 0⟩) (.reg .eax),
  .inc .esi,
  .add (.reg .eax) (.imm 0x1000)]

def setupPage (fuel : Nat) (s : Cpu) : Option Cpu := do
  let s := run [.mov (.reg .ecx) (.imm 4096), .mov (.reg .esi) (.imm 0)] s
  let s ← loop (fun s => some (run clearPageDir s)) fuel s
  let s := run createPde s
  let s ← loop (fun s => some (run createPte s)) fuel s
  let s := run [
    .mov (.reg .eax) (.imm (pageDirTablePos + 0x2000)),
    .or (.reg .eax) (.imm pgAttr),
    .mov (.reg .ebx) (.imm pageDirTablePos),
    .mov (.reg .esi) (.imm 769),
    .mov (.reg .ecx) (.imm 254)] s
  loop (fun s => some (run createKernelPde s)) fuel s

/-! ### The loops -/

section Loops

variable {s : Cpu} {n fuel : Nat}

theorem clearPageDir_step (s : Cpu) :
    (run clearPageDir s).mem = Function.update s.mem (s.reg .esi + pageDirTablePos).toNat 0 ∧
    (run clearPageDir s).reg .esi = s.reg .esi + 1 ∧
    (run clearPageDir s).reg .ecx = s.reg .ecx := by
  simp [clearPageDir, set_reg_of_ne]

theorem clearPageDir_loop (hfuel : 4096 ≤ fuel) (hecx : s.reg .ecx = 4096) (hesi : s.reg .esi = 0) :
    ∃ t, loop (fun s => some (run clearPageDir s)) fuel s = some t ∧
      t.mem = fill s.mem 0x100000 4096 0 := by
  let inv (k : Nat) (t : Cpu) : Prop :=
    t.mem = fill s.mem 0x100000 k 0 ∧ t.reg .esi = UInt32.ofNat k
  have hstep : ∀ k < 4096, ∀ u, inv k u → u.reg .ecx = UInt32.ofNat (4096 - k) →
      ∃ t, some (run clearPageDir u) = some t ∧ t.reg .ecx = u.reg .ecx ∧
        inv (k + 1) (t.set .ecx (t.reg .ecx - 1)) := by
    rintro k hk u ⟨hmem, hesi⟩ -
    obtain ⟨hmem', hesi', hecx'⟩ := clearPageDir_step u
    have hlt : k + 0x100000 < 2 ^ 32 := by omega
    have hat : (UInt32.ofNat k + pageDirTablePos).toNat = 0x100000 + k := by
      have hpos : pageDirTablePos = UInt32.ofNat 0x100000 := by decide
      rw [hpos, ← UInt32.ofNat_add, UInt32.toNat_ofNat_of_lt' hlt, Nat.add_comm]
    refine ⟨_, rfl, hecx', ?_, ?_⟩
    · rw [set_mem, hmem', hesi, hat, hmem, update_fill]
    · rw [set_reg_of_ne (by decide), hesi', hesi, UInt32.ofNat_add]
      rfl
  obtain ⟨t, hrun, hmem, -⟩ := loop_rule inv (by decide) (by decide) hfuel hecx
    ⟨(fill_zero ..).symm, hesi⟩ hstep
  exact ⟨t, hrun, hmem⟩

/-- A loop that fills a table from entry `first` on with frames that follow one another. -/
theorem table_loop {r : Reg} {is : List Instr} (hr : r ≠ .ecx)
    (hbody : ∀ s : Cpu, (run is s).mem =
        store32 s.mem (s.reg .ebx + 4 * s.reg .esi + 0).toNat (s.reg r).toNat ∧
      (run is s).reg .ebx = s.reg .ebx ∧ (run is s).reg .esi = s.reg .esi + 1 ∧
      (run is s).reg r = s.reg r + 4096 ∧ (run is s).reg .ecx = s.reg .ecx)
    (base first value : Nat) (hn : 0 < n) (hfuel : n ≤ fuel)
    (hbase : base + 4 * (first + n) < 2 ^ 32)
    (hvalue : value + 4096 * n < 2 ^ 32) (hecx : s.reg .ecx = UInt32.ofNat n)
    (hebx : s.reg .ebx = UInt32.ofNat base) (hesi : s.reg .esi = UInt32.ofNat first)
    (hval : s.reg r = UInt32.ofNat value) :
    ∃ t, loop (fun s => some (run is s)) fuel s = some t ∧
      WroteWords s.mem t.mem (base + 4 * first) n fun i => value + 4096 * i := by
  let inv (k : Nat) (t : Cpu) : Prop :=
    WroteWords s.mem t.mem (base + 4 * first) k (fun i => value + 4096 * i) ∧
    t.reg .ebx = UInt32.ofNat base ∧ t.reg .esi = UInt32.ofNat (first + k) ∧
    t.reg r = UInt32.ofNat (value + 4096 * k)
  have hstep : ∀ k < n, ∀ u, inv k u → u.reg .ecx = UInt32.ofNat (n - k) →
      ∃ t, some (run is u) = some t ∧ t.reg .ecx = u.reg .ecx ∧
        inv (k + 1) (t.set .ecx (t.reg .ecx - 1)) := by
    rintro k hk u ⟨hwords, hebx, hesi, hval⟩ -
    obtain ⟨hmem, hebx', hesi', hval', hecx'⟩ := hbody u
    have hat : (u.reg .ebx + 4 * u.reg .esi + 0).toNat = base + 4 * first + 4 * k := by
      have hofNat : u.reg .ebx + 4 * u.reg .esi + 0 = UInt32.ofNat (base + 4 * (first + k)) := by
        rw [hebx, hesi, UInt32.ofNat_add base, UInt32.ofNat_mul 4]
        simp
      have hlt : base + 4 * (first + k) < 2 ^ 32 := by omega
      rw [hofNat, UInt32.toNat_ofNat_of_lt' hlt]
      omega
    have hlt : value + 4096 * k < 2 ^ 32 := by omega
    refine ⟨_, rfl, hecx', ?_, ?_, ?_, ?_⟩
    · rw [set_mem, hmem, hat, hval, UInt32.toNat_ofNat_of_lt' hlt]
      exact hwords.store hlt
    · rw [set_reg_of_ne (by decide), hebx', hebx]
    · rw [set_reg_of_ne (by decide), hesi', hesi, ← Nat.add_assoc, UInt32.ofNat_add (first + k)]
      rfl
    · rw [set_reg_of_ne hr, hval', hval, Nat.mul_succ, ← Nat.add_assoc,
        UInt32.ofNat_add (value + _)]
      rfl
  obtain ⟨t, hrun, hwords, -⟩ := loop_rule inv hn (by omega) hfuel hecx
    ⟨.zero .., hebx, hesi, hval⟩ hstep
  exact ⟨t, hrun, hwords⟩

theorem createPde_step (s : Cpu) :
    (run createPde s).mem =
      store32 (store32 (store32 s.mem 0x100000 0x101007) 0x100c00 0x101007) 0x100ffc 0x100007 ∧
    (run createPde s).reg .ebx = UInt32.ofNat 0x101000 ∧
    (run createPde s).reg .edx = UInt32.ofNat 7 ∧ (run createPde s).reg .esi = UInt32.ofNat 0 ∧
    (run createPde s).reg .ecx = UInt32.ofNat 256 := by
  have hpde : ((pageDirTablePos + 0x1000 ||| pgAttr).toNat = 0x101007) ∧
      ((pageDirTablePos + 0x1000 ||| pgAttr) - 0x1000).toNat = 0x100007 := by decide
  have hat : pageDirTablePos.toNat = 0x100000 ∧ (pageDirTablePos + 0xc00).toNat = 0x100c00 ∧
      (pageDirTablePos + 4092).toNat = 0x100ffc := by decide
  simp [createPde, set_reg_of_ne, hpde, hat]
  decide

theorem createPte_step (s : Cpu) :
    (run createPte s).mem =
      store32 s.mem (s.reg .ebx + 4 * s.reg .esi + 0).toNat (s.reg .edx).toNat ∧
    (run createPte s).reg .ebx = s.reg .ebx ∧ (run createPte s).reg .esi = s.reg .esi + 1 ∧
    (run createPte s).reg .edx = s.reg .edx + 4096 ∧ (run createPte s).reg .ecx = s.reg .ecx := by
  simp [createPte, set_reg_of_ne]

theorem createKernelPde_step (s : Cpu) :
    (run createKernelPde s).mem =
      store32 s.mem (s.reg .ebx + 4 * s.reg .esi + 0).toNat (s.reg .eax).toNat ∧
    (run createKernelPde s).reg .ebx = s.reg .ebx ∧
    (run createKernelPde s).reg .esi = s.reg .esi + 1 ∧
    (run createKernelPde s).reg .eax = s.reg .eax + 4096 ∧
    (run createKernelPde s).reg .ecx = s.reg .ecx := by
  simp [createKernelPde, set_reg_of_ne]

end Loops

/-! ### The tables -/

def dirWord (i : Nat) : Nat :=
  if i = 0 ∨ i = 768 then 0x101007
  else if 769 ≤ i ∧ i < 1023 then 0x102007 + 4096 * (i - 769)
  else if i = 1023 then 0x100007
  else 0

/-- The directory at `0x100000` is set up, and 256 entries of the page table behind it. The rest of
that page table and the 254 others are as they were. -/
structure BootTables (mem mem' : Nat → UInt8) : Prop where
  dir : ∀ i < 1024, pde mem' 0x100000 i = dirWord i
  table : ∀ i < 256, load32 mem' (0x101000 + 4 * i) = 7 + 4096 * i
  kept : ∀ b, b < 0x100000 ∨ 0x101400 ≤ b → mem' b = mem b

theorem bootTables_of_writes {m m₁ m₂ : Nat → UInt8}
    (htable : WroteWords (store32 (store32 (store32 (fill m 0x100000 4096 0) 0x100000 0x101007)
      0x100c00 0x101007) 0x100ffc 0x100007) m₁ (0x101000 + 4 * 0) 256 fun i => 7 + 4096 * i)
    (hdir : WroteWords m₁ m₂ (0x100000 + 4 * 769) 254 fun i => 0x102007 + 4096 * i) :
    BootTables m m₂ := by
  refine ⟨fun i hi => ?_, fun i hi => ?_, fun b hb => ?_⟩
  · unfold pde dirWord
    by_cases hkernel : 769 ≤ i ∧ i < 1023
    · have hat : 0x100000 + 4 * i = 0x100000 + 4 * 769 + 4 * (i - 769) := by omega
      rw [if_neg (by omega), if_pos hkernel, hat]
      exact hdir.words (i - 769) (by omega)
    · rw [load32_congr fun b hb hb' => hdir.kept b (by omega),
        load32_congr fun b hb hb' => htable.kept b (by omega)]
      by_cases hself : i = 1023
      · rw [if_neg (by omega), if_neg hkernel, if_pos hself, hself]
        exact load32_store32_self (by decide)
      · rw [load32_store32_of_disjoint (by omega), if_neg hkernel, if_neg hself]
        by_cases hhigh : i = 768
        · rw [if_pos (.inr hhigh), hhigh]
          exact load32_store32_self (by decide)
        · rw [load32_store32_of_disjoint (by omega)]
          by_cases hlow : i = 0
          · rw [if_pos (.inl hlow), hlow]
            exact load32_store32_self (by decide)
          · rw [load32_store32_of_disjoint (by omega), if_neg (by omega)]
            exact load32_fill_zero (by omega)
  · rw [load32_congr fun b hb hb' => hdir.kept b (by omega)]
    exact htable.words i hi
  · rw [hdir.kept b (by omega), htable.kept b (by omega), store32_apply_of_not (by omega),
      store32_apply_of_not (by omega), store32_apply_of_not (by omega),
      fill_apply_of_not (by omega)]

theorem setupPage_tables {fuel : Nat} (hfuel : 4096 ≤ fuel) (s : Cpu) :
    ∃ t, setupPage fuel s = some t ∧ BootTables s.mem t.mem := by
  obtain ⟨s₁, hclear, hmem₁⟩ := @clearPageDir_loop
    (run [.mov (.reg .ecx) (.imm 4096), .mov (.reg .esi) (.imm 0)] s) fuel hfuel
    (by simp [set_reg_of_ne]) (by simp)
  obtain ⟨hmem₂, hebx, hedx, hesi, hecx⟩ := createPde_step s₁
  obtain ⟨s₂, hptes, htable⟩ := table_loop (by decide) createPte_step 0x101000 0 7 (by decide)
    (by omega : 256 ≤ fuel) (by decide) (by decide) hecx hebx hesi hedx
  obtain ⟨s₃, hpdes, hdir⟩ := @table_loop (run [
      .mov (.reg .eax) (.imm (pageDirTablePos + 0x2000)),
      .or (.reg .eax) (.imm pgAttr),
      .mov (.reg .ebx) (.imm pageDirTablePos),
      .mov (.reg .esi) (.imm 769),
      .mov (.reg .ecx) (.imm 254)] s₂) 254 fuel .eax createKernelPde (by decide)
    createKernelPde_step 0x100000 769 0x102007 (by decide) (by omega) (by decide) (by decide)
    (by simp) (by simp [set_reg_of_ne]; decide) (by simp [set_reg_of_ne])
    (by simp [set_reg_of_ne]; decide)
  refine ⟨s₃, ?_, ?_⟩
  · rw [setupPage]
    simp only [hclear, hptes, hpdes, Option.bind_eq_bind, Option.bind_some]
  · simp only [run_cons, run_nil, exec_mov, write_reg, set_mem] at hmem₁
    simp only [run_cons, run_nil, exec_mov, exec_or, write_reg, set_mem] at hdir
    rw [hmem₂, hmem₁] at htable
    exact bootTables_of_writes htable hdir

/-- The frame that the window shows for directory entry `i`: a page table, or the directory. -/
def windowFrame (i : Nat) : Option Nat :=
  if i = 0 ∨ i = 768 then some 0x101000
  else if 769 ≤ i ∧ i < 1023 then some (0x102000 + 4096 * (i - 769))
  else if i = 1023 then some 0x100000
  else none

/-- The first MiB is mapped twice, at 0 and at 3 GiB, the window from `0xffc00000` on shows the page
tables and the directory, and no other page is present. -/
structure BootMapped (mem : Nat → UInt8) : Prop where
  low : ∀ va < 0x100000, walk mem 0x100000 va = some va
  high : ∀ va < 0x100000, walk mem 0x100000 (0xc0000000 + va) = some va
  window : ∀ i < 1024, target mem 0x100000 (0xffc00 + i) = windowFrame i
  other : ∀ vp < 0xffc00, 256 ≤ vp → ¬(0xc0000 ≤ vp ∧ vp < 0xc0100) → target mem 0x100000 vp = none

theorem present_load32 (mem : Nat → UInt8) (a : Nat) :
    Present (load32 mem a) ↔ (mem a).toNat % 2 = 1 := by
  unfold Present load32
  omega

section Mapped

variable {mem mem' : Nat → UInt8}

theorem frame_dirWord (i : Nat) :
    (if Present (dirWord i) then some (frameOf (dirWord i)) else none) = windowFrame i := by
  unfold dirWord windowFrame Present frameOf
  split
  · rfl
  · split
    · rw [if_pos (by omega)]
      exact congrArg some (by omega)
    · split
      · rfl
      · rfl

theorem BootTables.entry_eq (h : BootTables mem mem') {vp f : Nat} (hvp : vp < 0x100000)
    (hf : windowFrame (vp / 1024) = some f) :
    entry mem' 0x100000 vp = some (f + 4 * (vp % 1024)) := by
  rw [← frame_dirWord, ← h.dir _ (by omega)] at hf
  split at hf
  · next hp =>
    rw [entry_of_present hp]
    cases hf
    rfl
  · cases hf

theorem BootTables.target_none (h : BootTables mem mem') {vp : Nat} (hvp : vp < 0x100000)
    (hf : windowFrame (vp / 1024) = none) : target mem' 0x100000 vp = none := by
  rw [← frame_dirWord, ← h.dir _ (by omega)] at hf
  have hnot : ¬ Present (pde mem' 0x100000 (vp / 1024)) := by
    intro hp
    rw [if_pos hp] at hf
    cases hf
  have hentry : entry mem' 0x100000 vp = none := if_neg hnot
  rw [target, hentry]

/-- A page whose entry has not been written is present if the memory had the bit there. -/
theorem BootTables.target_kept (h : BootTables mem mem') {vp a : Nat}
    (hentry : entry mem' 0x100000 vp = some a) (ha : 0x101400 ≤ a) :
    target mem' 0x100000 vp = none ↔ (mem a).toNat % 2 = 0 := by
  rw [target_of_entry hentry, load32_congr fun b hb _ => h.kept b (by omega)]
  have hiff := present_load32 mem a
  by_cases hp : Present (load32 mem a)
  · rw [if_pos hp]
    have hbit := hiff.mp hp
    exact iff_of_false nofun (by omega)
  · rw [if_neg hp]
    have hbit := mt hiff.mpr hp
    exact iff_of_true rfl (by omega)

theorem BootTables.walk_low (h : BootTables mem mem') {vp va : Nat}
    (hentry : entry mem' 0x100000 vp = some (0x101000 + 4 * (va / 4096))) (hva : va < 0x100000) :
    walk mem' 0x100000 (4096 * vp + va % 4096) = some va := by
  have hword := h.table (va / 4096) (by omega)
  have hp : Present (load32 mem' (0x101000 + 4 * (va / 4096))) := by
    rw [hword]
    unfold Present
    omega
  have htarget : target mem' 0x100000 vp = some (4096 * (va / 4096)) := by
    rw [target_of_entry hentry, if_pos hp, hword]
    unfold frameOf
    congr 1
    omega
  rw [walk_of_target htarget (Nat.mod_lt va (by decide))]
  congr 1
  omega

/-- The entry of page `vp` that is not written, for a page that should not be present. -/
theorem BootTables.entry_other (h : BootTables mem mem') {vp : Nat} (hvp : vp < 0xffc00)
    (hlow : 256 ≤ vp) (hhigh : ¬(0xc0000 ≤ vp ∧ vp < 0xc0100)) :
    target mem' 0x100000 vp = none ∨
      ∃ a, entry mem' 0x100000 vp = some a ∧ 0x101400 ≤ a ∧ a < 0x200000 ∧ a % 4 = 0 := by
  cases hf : windowFrame (vp / 1024) with
  | none => exact .inl (h.target_none (by omega) hf)
  | some f =>
    refine .inr ⟨_, h.entry_eq (by omega) hf, ?_⟩
    unfold windowFrame at hf
    split at hf
    · have hf := Option.some.inj hf
      omega
    · split at hf
      · have hf := Option.some.inj hf
        omega
      · split at hf
        · omega
        · cases hf

theorem BootTables.exists_entry (h : BootTables mem mem') {a : Nat} (ha : 0x101400 ≤ a)
    (ha' : a < 0x200000) (hmod : a % 4 = 0) : ∃ vp < 0xffc00, 256 ≤ vp ∧
      ¬(0xc0000 ≤ vp ∧ vp < 0xc0100) ∧ entry mem' 0x100000 vp = some a := by
  by_cases hfirst : a < 0x102000
  · refine ⟨(a - 0x101000) / 4, by omega, by omega, by omega, ?_⟩
    have hf : windowFrame ((a - 0x101000) / 4 / 1024) = some 0x101000 := if_pos (by omega)
    rw [h.entry_eq (by omega) hf]
    congr 1
    omega
  · have hdiv : (1024 * (a / 4096 + 511) + a % 4096 / 4) / 1024 = a / 4096 + 511 := by omega
    refine ⟨1024 * (a / 4096 + 511) + a % 4096 / 4, by omega, by omega, by omega, ?_⟩
    have hf : windowFrame ((1024 * (a / 4096 + 511) + a % 4096 / 4) / 1024) =
        some (0x102000 + 4096 * (a / 4096 + 511 - 769)) := by
      rw [hdiv]
      exact (if_neg (by omega)).trans (if_pos (by omega))
    rw [h.entry_eq (by omega) hf]
    congr 1
    omega

theorem BootTables.mapped_iff (h : BootTables mem mem') : BootMapped mem' ↔
    ∀ a, 0x101400 ≤ a → a < 0x200000 → a % 4 = 0 → (mem a).toNat % 2 = 0 := by
  constructor
  · intro hmapped a ha ha' hmod
    obtain ⟨vp, hvp, hlow, hhigh, hentry⟩ := h.exists_entry ha ha' hmod
    exact (h.target_kept hentry ha).mp (hmapped.other vp hvp hlow hhigh)
  · intro hclear
    refine ⟨fun va hva => ?_, fun va hva => ?_, fun i hi => ?_, fun vp hvp hlow hhigh => ?_⟩
    · have hentry := h.entry_eq (show va / 4096 < 0x100000 by omega)
        (show windowFrame (va / 4096 / 1024) = some 0x101000 from if_pos (by omega))
      rw [Nat.mod_eq_of_lt (by omega)] at hentry
      have hwalk := h.walk_low hentry hva
      rwa [Nat.div_add_mod] at hwalk
    · have hentry := h.entry_eq (show 0xc0000 + va / 4096 < 0x100000 by omega)
        (show windowFrame ((0xc0000 + va / 4096) / 1024) = some 0x101000 from if_pos (by omega))
      rw [show (0xc0000 + va / 4096) % 1024 = va / 4096 by omega] at hentry
      have hwalk := h.walk_low hentry hva
      rwa [show 4096 * (0xc0000 + va / 4096) + va % 4096 = 0xc0000000 + va by omega] at hwalk
    · have hentry := h.entry_eq (show 0xffc00 + i < 0x100000 by omega)
        (show windowFrame ((0xffc00 + i) / 1024) = some 0x100000 by
          rw [show (0xffc00 + i) / 1024 = 1023 by omega]; rfl)
      rw [show (0xffc00 + i) % 1024 = i by omega] at hentry
      have hword : load32 mem' (0x100000 + 4 * i) = dirWord i := h.dir i hi
      rw [target_of_entry hentry, hword, frame_dirWord]
    · rcases h.entry_other hvp hlow hhigh with hnone | ⟨a, hentry, ha, ha', hmod⟩
      · exact hnone
      · exact (h.target_kept hentry ha).mpr (hclear a ha ha' hmod)

end Mapped

/-- `setup_page` clears the page directory and writes 256 entries of the first page table, but does
not clear the rest of that table and the other 254: the mapping is right if no word there has the
present bit. -/
theorem setup_page_mapped_iff (s : Cpu) :
    (∃ n, ∀ fuel ≥ n, ∃ t, setupPage fuel s = some t ∧ BootMapped t.mem) ↔
      ∀ a, 0x101400 ≤ a → a < 0x200000 → a % 4 = 0 → (s.mem a).toNat % 2 = 0 := by
  constructor
  · rintro ⟨n, hn⟩
    obtain ⟨t, ht, hmapped⟩ := hn (n + 4096) (Nat.le_add_right ..)
    obtain ⟨t', ht', htables⟩ := setupPage_tables (Nat.le_add_left 4096 n) s
    obtain rfl := Option.some.inj (ht'.symm.trans ht)
    exact htables.mapped_iff.mp hmapped
  · intro hclear
    refine ⟨4096, fun fuel hfuel => ?_⟩
    obtain ⟨t, ht, htables⟩ := setupPage_tables hfuel s
    exact ⟨t, ht, htables.mapped_iff.mpr hclear⟩

def garbageRam : Cpu := ⟨fun _ => 0, fun _ => 0, 0, 0, fun _ => 0xff, true⟩

/-- The first page of the kernel heap is present, which `page_table_add` asserts it is not. -/
theorem setup_page_garbage : (∀ fuel ≥ 4096, ∃ t, setupPage fuel garbageRam = some t ∧
      target t.mem 0x100000 0xc0100 ≠ none) ∧
    ¬ ∃ n, ∀ fuel ≥ n, ∃ t, setupPage fuel garbageRam = some t ∧ BootMapped t.mem := by
  have hpresent : ∀ {t : Cpu}, BootTables garbageRam.mem t.mem →
      target t.mem 0x100000 0xc0100 ≠ none := by
    intro t htables hnone
    have hentry := htables.entry_eq (by decide : 0xc0100 < 0x100000) rfl
    exact absurd ((htables.target_kept hentry (by decide)).mp hnone) (by decide)
  constructor
  · intro fuel hfuel
    obtain ⟨t, ht, htables⟩ := setupPage_tables hfuel garbageRam
    exact ⟨t, ht, hpresent htables⟩
  · rintro ⟨n, hn⟩
    obtain ⟨t, ht, hmapped⟩ := hn (n + 4096) (Nat.le_add_right ..)
    obtain ⟨t', ht', htables⟩ := setupPage_tables (Nat.le_add_left 4096 n) garbageRam
    obtain rfl := Option.some.inj (ht'.symm.trans ht)
    exact hpresent htables (hmapped.other 0xc0100 (by decide) (by decide) (by decide))

end OriginOS.Boot
