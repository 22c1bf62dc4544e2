import OriginOS.Device.Ide
import OriginOS.Lib.Prog

/-! The scan for partitions of `device/ide.c`: `partition_scan`, and the loop of `ide_init` that
scans one disk after the other with the globals `ext_lba_base`, `p_no` and `l_no`. -/

namespace OriginOS

open Lib

structure PartitionTableEntry where
  fsType : UInt8
  startLba : UInt32
  secCnt : UInt32
deriving DecidableEq, Repr

/-- `partition_table` of the `struct boot_sector` at `bs`. -/
def partitionTable (bs : Nat → UInt8) : List PartitionTableEntry :=
  (List.range 4).map fun i =>
    ⟨bs (446 + 16 * i + 4), wordAt bs (446 + 16 * i + 8), wordAt bs (446 + 16 * i + 12)⟩

structure Hd where
  no : Nat
  disk : Disk

inductive PartSlot where
  | prim (i : Nat)
  | logic (i : Nat)
deriving DecidableEq, Repr

structure PartRecord where
  myDisk : Nat
  slot : PartSlot
  startLba : UInt32
  secCnt : UInt32
deriving DecidableEq, Repr

structure ScanState where
  extLbaBase : UInt32
  pNo : Nat
  lNo : Nat
  partitionList : List PartRecord
deriving DecidableEq, Repr

/-- The ways in which a scan does not return: an `ASSERT` fails, an element behind the end of
`logic_parts` is written, or the recursion is deeper than `fuel`. -/
inductive ScanStop where
  | panic (p : Panic)
  | overrun
  | deep
deriving DecidableEq, Repr

def ScanState.initial : ScanState := ⟨0, 0, 0, []⟩

def recordPrim (hd : Hd) (extLba : UInt32) (p : PartitionTableEntry) (g : ScanState) :
    Except ScanStop ScanState :=
  let g' := { g with
    partitionList := g.partitionList ++ [⟨hd.no, .prim g.pNo, extLba + p.startLba, p.secCnt⟩]
    pNo := g.pNo + 1 }
  if g'.pNo < 4 then .ok g'
  else .error (.panic ⟨"./device/ide.c", 255, "partition_scan", "p_no < 4"⟩)

def recordLogic (hd : Hd) (extLba : UInt32) (p : PartitionTableEntry) (g : ScanState) :
    Except ScanStop ScanState :=
  if g.lNo < 8 then
    .ok { g with
      partitionList := g.partitionList ++ [⟨hd.no, .logic g.lNo, extLba + p.startLba, p.secCnt⟩]
      lNo := g.lNo + 1 }
  else .error .overrun

/-- An extended partition is scanned: the first of them is where the sectors of the others count
from. -/
def scanExtended (scan : UInt32 → ScanState → Except ScanStop ScanState) (p : PartitionTableEntry)
    (g : ScanState) : Except ScanStop ScanState :=
  if g.extLbaBase ≠ 0 then scan (p.startLba + g.extLbaBase) g
  else scan p.startLba { g with extLbaBase := p.startLba }

/-- The loop of `partition_scan` over the entries that are left; `scan` is the recursive call. -/
def scanEntries (scan : UInt32 → ScanState → Except ScanStop ScanState) (hd : Hd)
    (extLba : UInt32) :
    List PartitionTableEntry → ScanState → Except ScanStop ScanState
  | [], g => .ok g
  | p :: ps, g =>
    if p.fsType = 0x05 then do
      let g ← scanExtended scan p g
      scanEntries scan hd extLba ps g
    else if p.fsType ≠ 0 then
      if extLba = 0 then do
        let g ← recordPrim hd extLba p g
        scanEntries scan hd extLba ps g
      else do
        let g ← recordLogic hd extLba p g
        if g.lNo ≥ 8 then .ok g else scanEntries scan hd extLba ps g
    else scanEntries scan hd extLba ps g

def partitionScan (hd : Hd) : Nat → UInt32 → ScanState → Except ScanStop ScanState
  | 0, _, _ => .error .deep
  | fuel + 1, extLba, g =>
    match ideRead hd.disk extLba.toNat (fun _ => 0) 1 with
    | .ok bs => scanEntries (partitionScan hd fuel) hd extLba (partitionTable bs) g
    | .error p => .error (.panic p)

/-- The loop of `ide_init` over the disks that are scanned. -/
def scanDisks (fuel : Nat) : List Hd → ScanState → Except ScanStop ScanState
  | [], g => .ok g
  | hd :: hds, g => do
    let g ← partitionScan hd fuel 0 g
    scanDisks fuel hds { g with pNo := 0, lNo := 0 }

/-- Scanned after the disks `hds`, the disk `hd` gets the partitions `r`, or its scan stops. -/
def Records (hds : List Hd) (hd : Hd) (r : Except ScanStop (List PartRecord)) : Prop :=
  r ≠ .error .deep ∧ ∃ fuel g fuel', scanDisks fuel hds .initial = .ok g ∧
    (partitionScan hd fuel' 0 g).map (fun g' => g'.partitionList.drop g.partitionList.length) = r

def Finishes (hds : List Hd) : Prop := ∃ fuel g, scanDisks fuel hds .initial = .ok g

/-- The master boot record has an entry for an extended partition. -/
def Hd.HasExtended (hd : Hd) : Prop :=
  ∃ p ∈ partitionTable (readSectors hd.disk (fun _ => 0) 0 1), p.fsType = 0x05

/-! ### What a scan does with the globals -/

section Globals

variable {hd : Hd} {scan scan' : UInt32 → ScanState → Except ScanStop ScanState} {extLba : UInt32}
  {g g' : ScanState} {ps : List PartitionTableEntry} {fuel : Nat}

theorem partitionScan_zero (g : ScanState) : partitionScan hd (fuel + 1) 0 g =
    scanEntries (partitionScan hd fuel) hd 0
      (partitionTable (readSectors hd.disk (fun _ => 0) 0 1)) g := by
  rw [partitionScan, show (0 : UInt32).toNat = 0 from rfl, ideRead_ok (.one (by decide))]

theorem scanEntries_cons_ok {p : PartitionTableEntry}
    (h : scanEntries scan hd extLba (p :: ps) g = .ok g') :
    (p.fsType = 0x05 ∧ g.extLbaBase ≠ 0 ∧ ∃ g₁, scan (p.startLba + g.extLbaBase) g = .ok g₁ ∧
      scanEntries scan hd extLba ps g₁ = .ok g') ∨
    (p.fsType = 0x05 ∧ g.extLbaBase = 0 ∧ ∃ g₁,
      scan p.startLba { g with extLbaBase := p.startLba } = .ok g₁ ∧
      scanEntries scan hd extLba ps g₁ = .ok g') ∨
    (p.fsType ≠ 0x05 ∧ ∃ g₁, g₁.extLbaBase = g.extLbaBase ∧
      ((g' = g₁ ∧ extLba ≠ 0) ∨ scanEntries scan hd extLba ps g₁ = .ok g')) := by
  rw [scanEntries] at h
  by_cases hext : p.fsType = 0x05
  · rw [if_pos hext] at h
    obtain ⟨g₁, hscan, hrest⟩ := exists_of_bind_eq_ok h
    by_cases hbase : g.extLbaBase ≠ 0
    · rw [scanExtended, if_pos hbase] at hscan
      exact .inl ⟨hext, hbase, g₁, hscan, hrest⟩
    · rw [scanExtended, if_neg hbase] at hscan
      exact .inr (.inl ⟨hext, not_not.mp hbase, g₁, hscan, hrest⟩)
  · refine .inr (.inr ⟨hext, ?_⟩)
    rw [if_neg hext] at h
    split at h
    · split at h
      · obtain ⟨g₁, hrec, hrest⟩ := exists_of_bind_eq_ok h
        refine ⟨g₁, ?_, .inr hrest⟩
        unfold recordPrim at hrec
        dsimp only at hrec
        split at hrec
        · exact Except.ok.inj hrec ▸ rfl
        · cases hrec
      · next hne =>
        obtain ⟨g₁, hrec, hrest⟩ := exists_of_bind_eq_ok h
        have hkept : g₁.extLbaBase = g.extLbaBase := by
          unfold recordLogic at hrec
          split at hrec
          · exact Except.ok.inj hrec ▸ rfl
          · cases hrec
        split at hrest
        · exact ⟨g₁, hkept, .inl ⟨(Except.ok.inj hrest).symm, hne⟩⟩
        · exact ⟨g₁, hkept, .inr hrest⟩
    · exact ⟨g, rfl, .inr h⟩

theorem scanEntries_base_kept
    (hscan : ∀ x g g', scan x g = .ok g' → g.extLbaBase ≠ 0 → g'.extLbaBase = g.extLbaBase)
    (h : scanEntries scan hd extLba ps g = .ok g') (hg : g.extLbaBase ≠ 0) :
    g'.extLbaBase = g.extLbaBase := by
  induction ps generalizing g with
  | nil => exact Except.ok.inj h ▸ rfl
  | cons p ps ih =>
    rcases scanEntries_cons_ok h with ⟨-, -, g₁, hs, hrest⟩ | ⟨-, hbase, -⟩ | ⟨-, g₁, hkept, hor⟩
    · have hbase := hscan _ _ _ hs hg
      rw [ih hrest (hbase ▸ hg), hbase]
    · exact absurd hbase hg
    · rcases hor with ⟨rfl, -⟩ | hrest
      · exact hkept
      · rw [ih hrest (hkept ▸ hg), hkept]

theorem partitionScan_base_kept (h : partitionScan hd fuel extLba g = .ok g')
    (hg : g.extLbaBase ≠ 0) : g'.extLbaBase = g.extLbaBase := by
  induction fuel generalizing extLba g g' with
  | zero => cases h
  | succ fuel ih =>
    rw [partitionScan] at h
    split at h
    · exact scanEntries_base_kept (fun x g g' hs hne => ih hs hne) h hg
    · cases h

/-- A disk with an extended partition leaves `ext_lba_base` set. The entry may give sector 0, then
the boot record is scanned again and the base is set there. -/
theorem partitionScan_base_set (h : partitionScan hd fuel 0 g = .ok g') (hext : hd.HasExtended) :
    g'.extLbaBase ≠ 0 := by
  induction fuel generalizing g g' with
  | zero => cases h
  | succ fuel ih =>
    rw [partitionScan_zero] at h
    obtain ⟨p, hp, htype⟩ := hext
    generalize partitionTable (readSectors hd.disk (fun _ => 0) 0 1) = ps at hp h
    have hkept : ∀ x g g', partitionScan hd fuel x g = .ok g' → g.extLbaBase ≠ 0 →
        g'.extLbaBase = g.extLbaBase := fun _ _ _ hs hne => partitionScan_base_kept hs hne
    induction ps generalizing g with
    | nil => cases hp
    | cons q ps ihs =>
      rcases scanEntries_cons_ok h with ⟨-, hbase, -⟩ | ⟨-, hbase, g₁, hs, hrest⟩ |
        ⟨hnot, g₁, -, hor⟩
      · rw [scanEntries_base_kept hkept h hbase]
        exact hbase
      · have hset : g₁.extLbaBase ≠ 0 := by
          by_cases hzero : q.startLba = 0
          · rw [hzero] at hs
            exact ih hs
          · rw [hkept _ _ _ hs hzero]
            exact hzero
        rw [scanEntries_base_kept hkept hrest hset]
        exact hset
      · rcases hor with ⟨-, hne⟩ | hrest
        · exact absurd rfl hne
        · rcases List.mem_cons.mp hp with rfl | hp
          · exact absurd htype hnot
          · exact ihs hp hrest

end Globals

/-! ### More fuel -/

section Fuel

variable {hd : Hd} {scan scan' : UInt32 → ScanState → Except ScanStop ScanState} {extLba : UInt32}
  {g g' g₁ g₂ : ScanState} {ps : List PartitionTableEntry} {hds : List Hd} {fuel fuel' : Nat}

theorem scanEntries_mono (hscan : ∀ x g g', scan x g = .ok g' → scan' x g = .ok g')
    (h : scanEntries scan hd extLba ps g = .ok g') : scanEntries scan' hd extLba ps g = .ok g' := by
  induction ps generalizing g with
  | nil => exact h
  | cons p ps ih =>
    rw [scanEntries] at h ⊢
    split
    · next hext =>
      rw [if_pos hext] at h
      obtain ⟨g₁, hs, hrest⟩ := exists_of_bind_eq_ok h
      have hs' : scanExtended scan' p g = .ok g₁ := by
        unfold scanExtended at hs ⊢
        split
        · next hb => rw [if_pos hb] at hs; exact hscan _ _ _ hs
        · next hb => rw [if_neg hb] at hs; exact hscan _ _ _ hs
      rw [hs']
      exact ih hrest
    next hext =>
    rw [if_neg hext] at h
    split
    · next htype =>
      rw [if_pos htype] at h
      split
      · next hzero =>
        rw [if_pos hzero] at h
        obtain ⟨g₁, hrec, hrest⟩ := exists_of_bind_eq_ok h
        rw [hrec]
        exact ih hrest
      · next hzero =>
        rw [if_neg hzero] at h
        obtain ⟨g₁, hrec, hrest⟩ := exists_of_bind_eq_ok h
        rw [hrec]
        show (if g₁.lNo ≥ 8 then _ else _) = _
        split
        · next hl => rw [if_pos hl] at hrest; exact hrest
        · next hl => rw [if_neg hl] at hrest; exact ih hrest
    · next htype =>
      rw [if_neg htype] at h
      exact ih h

theorem partitionScan_mono (hle : fuel ≤ fuel') (h : partitionScan hd fuel extLba g = .ok g') :
    partitionScan hd fuel' extLba g = .ok g' := by
  induction fuel generalizing fuel' extLba g g' with
  | zero => cases h
  | succ fuel ih =>
    obtain ⟨fuel', rfl⟩ : ∃ n, fuel' = n + 1 := ⟨fuel' - 1, by omega⟩
    rw [partitionScan] at h ⊢
    split at h
    · next bs hread => exact scanEntries_mono (fun x g g' hs => ih (by omega) hs) h
    · cases h

theorem scanDisks_mono (hle : fuel ≤ fuel') (h : scanDisks fuel hds g = .ok g') :
    scanDisks fuel' hds g = .ok g' := by
  induction hds generalizing g with
  | nil => exact h
  | cons d hds ih =>
    obtain ⟨g₁, hscan, hrest⟩ := exists_of_bind_eq_ok h
    rw [scanDisks, partitionScan_mono hle hscan]
    exact ih hrest

theorem scanDisks_unique (h₁ : scanDisks fuel hds g = .ok g₁)
    (h₂ : scanDisks fuel' hds g = .ok g₂) :
    g₁ = g₂ := by
  have h₁' := scanDisks_mono (Nat.le_max_left fuel fuel') h₁
  have h₂' := scanDisks_mono (Nat.le_max_right fuel fuel') h₂
  exact Except.ok.inj (h₁'.symm.trans h₂')

end Fuel

/-! ### Where the scan depends on the globals -/

section Independence

variable {hd : Hd} {scan scan' : UInt32 → ScanState → Except ScanStop ScanState} {extLba : UInt32}
  {g g' : ScanState} {ps : List PartitionTableEntry} {fuel : Nat}

/-- The globals with the partitions `l` recorded before. -/
def ScanState.behind (l : List PartRecord) (g : ScanState) : ScanState :=
  { g with partitionList := l ++ g.partitionList }

theorem map_bind_comm {α β γ : Type} {f : α → β} {f' : γ → ScanState} {x : Except ScanStop β}
    {y : Except ScanStop α} {k : β → Except ScanStop ScanState} {k' : α → Except ScanStop γ}
    (hx : x = y.map f) (hk : ∀ a, k (f a) = (k' a).map f') : (x >>= k) = (y >>= k').map f' := by
  subst hx
  cases y with
  | error e => rfl
  | ok a => exact hk a

theorem recordPrim_behind (l : List PartRecord) (p : PartitionTableEntry) (g : ScanState) :
    recordPrim hd extLba p (g.behind l) = (recordPrim hd extLba p g).map (.behind l) := by
  unfold recordPrim ScanState.behind
  dsimp only
  split
  · simp [Except.map]
  · rfl

theorem recordLogic_behind (l : List PartRecord) (p : PartitionTableEntry) (g : ScanState) :
    recordLogic hd extLba p (g.behind l) = (recordLogic hd extLba p g).map (.behind l) := by
  unfold recordLogic ScanState.behind
  dsimp only
  split
  · simp [Except.map]
  · rfl

theorem scanEntries_behind {l : List PartRecord}
    (hscan : ∀ x g, scan x (g.behind l) = (scan x g).map (.behind l)) (g : ScanState) :
    scanEntries scan hd extLba ps (g.behind l) =
    (scanEntries scan hd extLba ps g).map (.behind l) := by
  induction ps generalizing g with
  | nil => rfl
  | cons p ps ih =>
    rw [scanEntries, scanEntries]
    split
    · refine map_bind_comm ?_ ih
      rw [scanExtended, scanExtended]
      split
      · next hb => rw [if_pos (show g.extLbaBase ≠ 0 from hb)]; exact hscan _ g
      · next hb =>
        rw [if_neg (show ¬ g.extLbaBase ≠ 0 from hb)]
        exact hscan _ { g with extLbaBase := p.startLba }
    split
    · split
      · exact map_bind_comm (recordPrim_behind l p g) ih
      · refine map_bind_comm (recordLogic_behind l p g) fun g₁ => ?_
        split
        · next hl => rw [if_pos (show g₁.lNo ≥ 8 from hl)]; rfl
        · next hl => rw [if_neg (show ¬ g₁.lNo ≥ 8 from hl)]; exact ih g₁
    · exact ih g

theorem partitionScan_behind (l : List PartRecord) (g : ScanState) :
    partitionScan hd fuel extLba (g.behind l) =
    (partitionScan hd fuel extLba g).map (.behind l) := by
  induction fuel generalizing extLba g with
  | zero => rfl
  | succ fuel ih =>
    rw [partitionScan, partitionScan]
    split
    · exact scanEntries_behind (fun x g => ih g) g
    · rfl

theorem scanEntries_base (b : UInt32) (hps : ∀ p ∈ ps, p.fsType ≠ 0x05) (g : ScanState) :
    scanEntries scan hd 0 ps { g with extLbaBase := b } =
      (scanEntries scan' hd 0 ps g).map fun g => { g with extLbaBase := b } := by
  induction ps generalizing g with
  | nil => rfl
  | cons p ps ih =>
    have hrest := ih fun q hq => hps q (List.mem_cons_of_mem _ hq)
    rw [scanEntries, scanEntries, if_neg (hps p List.mem_cons_self),
      if_neg (hps p List.mem_cons_self)]
    split
    · rw [if_pos rfl, if_pos rfl]
      refine map_bind_comm (f := fun g => { g with extLbaBase := b }) ?_ hrest
      unfold recordPrim
      dsimp only
      split <;> rfl
    · exact hrest g

end Independence

/-! ### The disks of `ide_init` -/

section Disks

variable {hd : Hd} {hds : List Hd} {g g' : ScanState} {fuel : Nat}

theorem partitionScan_base_same (h : partitionScan hd fuel 0 g = .ok g') (hext : ¬ hd.HasExtended) :
    g'.extLbaBase = g.extLbaBase := by
  cases fuel with
  | zero => cases h
  | succ fuel =>
    rw [partitionScan_zero] at h
    have hps : ∀ p ∈ partitionTable (readSectors hd.disk (fun _ => 0) 0 1), p.fsType ≠ 0x05 :=
      fun p hp htype => hext ⟨p, hp, htype⟩
    generalize partitionTable (readSectors hd.disk (fun _ => 0) 0 1) = ps at hps h
    induction ps generalizing g with
    | nil => exact Except.ok.inj h ▸ rfl
    | cons p ps ih =>
      have hp := hps p List.mem_cons_self
      rcases scanEntries_cons_ok h with ⟨htype, -⟩ | ⟨htype, -⟩ | ⟨-, g₁, hkept, hor⟩
      · exact absurd htype hp
      · exact absurd htype hp
      · rcases hor with ⟨-, hne⟩ | hrest
        · exact absurd rfl hne
        · rw [ih (fun q hq => hps q (List.mem_cons_of_mem _ hq)) hrest, hkept]

/-- The globals between two disks: `ext_lba_base` is the one that is not reset. -/
theorem scanDisks_ok (h : scanDisks fuel hds g = .ok g') (hp : g.pNo = 0) (hl : g.lNo = 0) :
    g'.pNo = 0 ∧ g'.lNo = 0 ∧
      (g'.extLbaBase = 0 ↔ g.extLbaBase = 0 ∧ ∀ d ∈ hds, ¬ d.HasExtended) := by
  induction hds generalizing g with
  | nil =>
    obtain rfl : g = g' := Except.ok.inj h
    exact ⟨hp, hl, by simp⟩
  | cons d hds ih =>
    obtain ⟨g₁, hscan, hrest⟩ := exists_of_bind_eq_ok h
    obtain ⟨hp', hl', hbase⟩ := ih hrest rfl rfl
    refine ⟨hp', hl', hbase.trans ?_⟩
    show g₁.extLbaBase = 0 ∧ _ ↔ _
    rw [List.forall_mem_cons, ← and_assoc]
    refine and_congr_left fun _ => ?_
    by_cases hext : d.HasExtended
    · exact iff_of_false (partitionScan_base_set hscan hext) fun h => h.2 hext
    · rw [and_iff_left hext]
      exact iff_of_eq (congrArg (· = 0) (partitionScan_base_same hscan hext))

/-- The partitions of a disk that is scanned with `ext_lba_base` at `b`. -/
def scannedWith (b : UInt32) (hd : Hd) (fuel : Nat) : Except ScanStop (List PartRecord) :=
  (partitionScan hd fuel 0 { ScanState.initial with extLbaBase := b }).map (·.partitionList)

theorem scanned_eq (hp : g.pNo = 0) (hl : g.lNo = 0) :
    (partitionScan hd fuel 0 g).map (fun g' => g'.partitionList.drop g.partitionList.length) =
      scannedWith g.extLbaBase hd fuel := by
  have hg : g = ({ ScanState.initial with extLbaBase := g.extLbaBase }).behind g.partitionList := by
    obtain ⟨b, p, l, parts⟩ := g
    obtain rfl : p = 0 := hp
    obtain rfl : l = 0 := hl
    simp [ScanState.behind, ScanState.initial]
  have hscan := @partitionScan_behind hd 0 fuel g.partitionList
    { ScanState.initial with extLbaBase := g.extLbaBase }
  rw [← hg] at hscan
  rw [hscan, scannedWith]
  cases partitionScan hd fuel 0 { ScanState.initial with extLbaBase := g.extLbaBase } with
  | error e => rfl
  | ok g' => simp [Except.map, ScanState.behind]

theorem records_nil {r : Except ScanStop (List PartRecord)} :
    Records [] hd r ↔ r ≠ .error .deep ∧ ∃ fuel, scannedWith 0 hd fuel = r := by
  refine and_congr_right fun _ => ⟨?_, ?_⟩
  · rintro ⟨fuel, g, fuel', hg, hr⟩
    obtain rfl : ScanState.initial = g := Except.ok.inj hg
    exact ⟨fuel', (scanned_eq rfl rfl).symm.trans hr⟩
  · rintro ⟨fuel, hr⟩
    exact ⟨fuel, .initial, fuel, rfl, (scanned_eq rfl rfl).trans hr⟩

/-- With `ext_lba_base` back at 0, or no extended partition, the scan is that of a first disk. -/
theorem records_iff_first (hfin : Finishes hds)
    (h : ∀ fuel g, scanDisks fuel hds .initial = .ok g → ∀ fuel',
      scannedWith g.extLbaBase hd fuel' = scannedWith 0 hd fuel')
    (r : Except ScanStop (List PartRecord)) : Records hds hd r ↔ Records [] hd r := by
  rw [records_nil]
  refine and_congr_right fun _ => ⟨?_, ?_⟩
  · rintro ⟨fuel, g, fuel', hg, hr⟩
    obtain ⟨hp, hl, -⟩ := scanDisks_ok hg rfl rfl
    rw [scanned_eq hp hl, h fuel g hg] at hr
    exact ⟨fuel', hr⟩
  · rintro ⟨fuel', hr⟩
    obtain ⟨fuel, g, hg⟩ := hfin
    obtain ⟨hp, hl, -⟩ := scanDisks_ok hg rfl rfl
    refine ⟨fuel, g, fuel', hg, ?_⟩
    rw [scanned_eq hp hl, h fuel g hg, hr]

theorem scannedWith_of_not_extended (hext : ¬ hd.HasExtended) (b : UInt32) (fuel : Nat) :
    scannedWith b hd fuel = scannedWith 0 hd fuel := by
  cases fuel with
  | zero => rfl
  | succ fuel =>
    have hps : ∀ p ∈ partitionTable (readSectors hd.disk (fun _ => 0) 0 1), p.fsType ≠ 0x05 :=
      fun p hp htype => hext ⟨p, hp, htype⟩
    have hbase := @scanEntries_base hd (partitionScan hd fuel)
      (partitionScan hd fuel) _ b hps .initial
    simp only [scannedWith, partitionScan_zero]
    rw [hbase]
    show _ = (scanEntries (partitionScan hd fuel) hd 0 _ ScanState.initial).map _
    cases scanEntries (partitionScan hd fuel) hd 0
      (partitionTable (readSectors hd.disk (fun _ => 0) 0 1)) ScanState.initial <;> rfl

end Disks

/-! ### A disk that shows the base -/

/-- The boot record has an extended partition at sector `x`, and there is a logical partition of one
sector. -/
def extendedDisk (x : UInt8) : Disk := fun a =>
  if a = 450 then 0x05 else if a = 454 then x
  else if a = 512 * x.toNat + 450 then 0x83 else if a = 512 * x.toNat + 454 then 1
  else if a = 512 * x.toNat + 458 then 1 else 0

def extendedHd (x : UInt8) : Hd := ⟨1, extendedDisk x⟩

theorem partitionTable_zero {bs : Nat → UInt8} (h : ∀ a < 512, bs a = 0) :
    partitionTable bs = List.replicate 4 ⟨0, 0, 0⟩ := by
  have hword : ∀ a, a + 4 ≤ 512 → wordAt bs a = 0 := fun a ha => by
    simp only [wordAt, load32, h a (by omega), h (a + 1) (by omega), h (a + 2) (by omega),
      h (a + 3) (by omega)]
    rfl
  simp [partitionTable, List.range_succ, h, hword, List.replicate]

section Extended

variable {x : UInt8} {b : UInt32}

theorem partitionTable_boot (hx : x = 1 ∨ x = 2) :
    partitionTable (readSectors (extendedDisk x) (fun _ => 0) 0 1) =
      [⟨0x05, x.toUInt32, 0⟩, ⟨0, 0, 0⟩, ⟨0, 0, 0⟩, ⟨0, 0, 0⟩] := by
  rcases hx with rfl | rfl <;> decide +kernel

theorem scanEntries_empty (scan : UInt32 → ScanState → Except ScanStop ScanState) (hd : Hd)
    (extLba : UInt32) (n : Nat) (g : ScanState) :
    scanEntries scan hd extLba (List.replicate n ⟨0, 0, 0⟩) g = .ok g := by
  induction n with
  | zero => rfl
  | succ n ih => exact ih

theorem scannedWith_extended_first (hx : x = 1 ∨ x = 2) (fuel : Nat) :
    scannedWith 0 (extendedHd x) (fuel + 2) = .ok [⟨1, .logic 0, x.toUInt32 + 1, 1⟩] := by
  rcases hx with rfl | rfl <;> rfl

theorem partitionScan_elsewhere {y : UInt32} (h0 : y.toNat ≠ 0) (hx : y.toNat ≠ x.toNat)
    (fuel : Nat)
    (g : ScanState) : partitionScan (extendedHd x) fuel y g = .ok g ∨
      ∃ e, partitionScan (extendedHd x) fuel y g = .error e := by
  cases fuel with
  | zero => exact .inr ⟨_, rfl⟩
  | succ fuel =>
    rw [partitionScan]
    cases hread : ideRead (extendedHd x).disk y.toNat (fun _ => 0) 1 with
    | error p => exact .inr ⟨_, rfl⟩
    | ok bs =>
      obtain ⟨-, rfl⟩ := ideRead_eq_ok.mp hread
      have hzero : ∀ a < 512, readSectors (extendedHd x).disk (fun _ => 0) y.toNat 1 a = 0 := by
        intro a ha
        rw [readSectors_apply (by omega), show (extendedHd x).disk = extendedDisk x from rfl]
        unfold extendedDisk
        rw [if_neg (by omega), if_neg (by omega), if_neg (by omega), if_neg (by omega),
          if_neg (by omega)]
      refine .inl ?_
      dsimp only
      rw [partitionTable_zero hzero, scanEntries_empty]

theorem scannedWith_extended_later (hx : x = 1 ∨ x = 2) (hb : b ≠ 0) (hne : x.toUInt32 + b ≠ 0)
    (fuel : Nat) : scannedWith b (extendedHd x) fuel ≠ .ok [⟨1, .logic 0, x.toUInt32 + 1, 1⟩] := by
  cases fuel with
  | zero => exact nofun
  | succ fuel =>
    have hother : (x.toUInt32 + b).toNat ≠ x.toNat := by
      have hbpos : b.toNat ≠ 0 := fun h => hb (UInt32.toNat_inj.mp h)
      have := b.toNat_lt
      have := x.toNat_lt
      rw [UInt32.toNat_add, UInt8.toNat_toUInt32]
      omega
    rw [scannedWith, partitionScan_zero, show (extendedHd x).disk = extendedDisk x from rfl,
      partitionTable_boot hx, scanEntries, if_pos rfl, scanExtended, if_pos hb]
    rcases partitionScan_elsewhere (fun h => hne (UInt32.toNat_inj.mp h)) hother fuel
      { ScanState.initial with extLbaBase := b } with hscan | ⟨e, hscan⟩
    · rw [hscan]
      exact nofun
    · rw [hscan]
      exact nofun

end Extended

theorem exists_scannedWith_ne {b : UInt32} (hb : b ≠ 0) : ∃ hd r, r ≠ .error .deep ∧
    (∃ fuel, scannedWith 0 hd fuel = r) ∧ ∀ fuel, scannedWith b hd fuel ≠ r := by
  by_cases hone : (1 : UInt8).toUInt32 + b = 0
  · have htwo : (2 : UInt8).toUInt32 + b ≠ 0 := by
      intro h
      have hcancel := (UInt32.add_left_inj b).mp (h.trans hone.symm)
      exact absurd hcancel (by decide)
    exact ⟨extendedHd 2, _, by simp, ⟨2, scannedWith_extended_first (.inr rfl) 0⟩,
      scannedWith_extended_later (.inr rfl) hb htwo⟩
  · exact ⟨extendedHd 1, _, by simp, ⟨2, scannedWith_extended_first (.inl rfl) 0⟩,
      scannedWith_extended_later (.inl rfl) hb hone⟩

/-- Whatever disk is scanned after `hds`, its partitions are those of a first disk, just when none
of `hds` has an extended partition. A disk without one is scanned in the same way after any disks.
-/
theorem partition_scan_independent_iff (hds : List Hd) (hfin : Finishes hds) :
    ((∀ hd r, Records hds hd r ↔ Records [] hd r) ↔ ∀ d ∈ hds, ¬ d.HasExtended) ∧
    ∀ hd, ¬ hd.HasExtended → ∀ r, Records hds hd r ↔ Records [] hd r := by
  refine ⟨⟨fun hsame => ?_, fun hds' hd r => ?_⟩, fun hd hext r => ?_⟩
  · by_contra hext
    -- The base is left behind, and with it there is a disk whose first scan cannot be had again.
    have hbase : ∀ fuel g, scanDisks fuel hds .initial = .ok g → g.extLbaBase ≠ 0 :=
      fun fuel g hg h => hext ((scanDisks_ok hg rfl rfl).2.2.mp h).2
    obtain ⟨fuel, g, hg⟩ := hfin
    obtain ⟨hd, r, hr, hfirst, hlater⟩ := exists_scannedWith_ne (hbase fuel g hg)
    obtain ⟨-, fuel₁, g₁, fuel', hg₁, hr₁⟩ := (hsame hd r).mpr (records_nil.mpr ⟨hr, hfirst⟩)
    obtain rfl : g₁ = g := scanDisks_unique hg₁ hg
    obtain ⟨hp, hl, -⟩ := scanDisks_ok hg₁ rfl rfl
    rw [scanned_eq hp hl] at hr₁
    exact hlater fuel' hr₁
  · refine records_iff_first hfin (fun fuel g hg fuel' => ?_) r
    rw [(scanDisks_ok hg rfl rfl).2.2.mpr ⟨rfl, hds'⟩]
  · exact records_iff_first hfin (fun fuel g _ fuel' => scannedWith_of_not_extended hext _ _) r

def primaryHd : Hd :=
  ⟨1, fun a => if a = 450 then 0x83 else if a = 455 then 8 else if a = 459 then 1 else 0⟩

theorem partition_scan_independent_primary :
    Records [primaryHd] (extendedHd 1) (.ok [⟨1, .logic 0, 2, 1⟩]) := by
  have hfin : Finishes [primaryHd] := ⟨1, ⟨0, 0, 0, [⟨1, .prim 0, 2048, 256⟩]⟩, by decide +kernel⟩
  have hfirst : Records [] (extendedHd 1) (.ok [⟨1, .logic 0, 2, 1⟩]) :=
    ⟨by simp, 0, .initial, 2, rfl, by decide +kernel⟩
  refine ((partition_scan_independent_iff [primaryHd] hfin).1.mpr (fun d hd => ?_) _ _).mpr hfirst
  obtain rfl : d = primaryHd := List.mem_singleton.mp hd
  rintro ⟨p, hp, htype⟩
  have htable : partitionTable (readSectors primaryHd.disk (fun _ => 0) 0 1) =
      [⟨0x83, 2048, 256⟩, ⟨0, 0, 0⟩, ⟨0, 0, 0⟩, ⟨0, 0, 0⟩] := by decide +kernel
  rw [htable] at hp
  simp only [List.mem_cons, List.not_mem_nil, or_false] at hp
  rcases hp with rfl | rfl | rfl | rfl <;> exact absurd htype (by decide)

/-- Two disks with the same contents: the second gets no partition. -/
theorem partition_scan_second_disk_differs :
    Records [] (extendedHd 1) (.ok [⟨1, .logic 0, 2, 1⟩]) ∧
    Records [extendedHd 1] (extendedHd 1) (.ok []) ∧
    ¬ Records [extendedHd 1] (extendedHd 1) (.ok [⟨1, .logic 0, 2, 1⟩]) := by
  have hfin : scanDisks 2 [extendedHd 1] .initial = .ok ⟨1, 0, 0, [⟨1, .logic 0, 2, 1⟩]⟩ := by
    decide +kernel
  refine ⟨⟨by simp, 0, .initial, 2, rfl, by decide +kernel⟩,
    ⟨by simp, 2, _, 2, hfin, by decide +kernel⟩, ?_⟩
  rintro ⟨-, fuel, g, fuel', hg, hr⟩
  obtain rfl := scanDisks_unique hg hfin
  rw [scanned_eq rfl rfl] at hr
  exact scannedWith_extended_later (.inl rfl) (by decide) (by decide) fuel' hr

end OriginOS
