import OriginOS.Device.Partition

/-! What `partition_scan` makes of a disk with a well-formed partition table: a master boot record
with primary partitions and at most one extended one, in which a chain of boot records has one
logical partition each. -/

namespace OriginOS

open Lib

def Hd.table (hd : Hd) (lba : UInt32) : List PartitionTableEntry :=
  partitionTable (readSectors hd.disk (fun _ => 0) lba.toNat 1)

/-- The entry of an extended partition, or of a link in the chain. -/
def PartitionTableEntry.isExtended (p : PartitionTableEntry) : Bool := p.fsType = 0x05

def PartitionTableEntry.isPart (p : PartitionTableEntry) : Bool := p.fsType ≠ 0 ∧ p.fsType ≠ 0x05

def used (ps : List PartitionTableEntry) : List PartitionTableEntry := ps.filter (·.fsType ≠ 0)

/-- An extended boot record: its sector, and the entry of its logical partition. -/
structure Ebr where
  lba : UInt32
  part : PartitionTableEntry

/-- A chain of extended boot records from sector `lba` on. The links count from the sector `base`,
and none of them leads to the master boot record in sector 0, which a sum within the disk does not.
-/
inductive EbrChain (hd : Hd) (base : UInt32) : UInt32 → List Ebr → Prop
  | last {lba : UInt32} {p : PartitionTableEntry} : lba.toNat ≤ maxLba →
    used (hd.table lba) = [p] → p.isPart → EbrChain hd base lba [⟨lba, p⟩]
  | link {lba : UInt32} {p q : PartitionTableEntry} {rest : List Ebr} : lba.toNat ≤ maxLba →
    used (hd.table lba) = [p, q] → p.isPart → q.isExtended →
    q.startLba + base ≠ 0 → EbrChain hd base (q.startLba + base) rest →
    EbrChain hd base lba (⟨lba, p⟩ :: rest)

/-- A disk with the primary partitions `prims` and the chain `chain`. -/
structure WellFormed (hd : Hd) (prims : List PartitionTableEntry) (chain : List Ebr) : Prop where
  parts : (hd.table 0).filter (·.isPart) = prims
  few : prims.length ≤ 3
  links : ((hd.table 0).filter (·.isExtended) = [] ∧ chain = []) ∨
    ∃ q, (hd.table 0).filter (·.isExtended) = [q] ∧ q.startLba ≠ 0 ∧
      EbrChain hd q.startLba q.startLba chain

/-- The elements of `prim_parts` from number `i` on. -/
def primRecords (hd : Hd) : Nat → List PartitionTableEntry → List PartRecord
  | _, [] => []
  | i, p :: ps => ⟨hd.no, .prim i, p.startLba, p.secCnt⟩ :: primRecords hd (i + 1) ps

/-- The elements of `logic_parts` from number `i` on. -/
def logicRecords (hd : Hd) : Nat → List Ebr → List PartRecord
  | _, [] => []
  | i, e :: es =>
    ⟨hd.no, .logic i, e.lba + e.part.startLba, e.part.secCnt⟩ :: logicRecords hd (i + 1) es

section Entries

variable {hd : Hd} {scan : UInt32 → ScanState → Except ScanStop ScanState} {extLba : UInt32}
  {g : ScanState} {p : PartitionTableEntry} {ps qs : List PartitionTableEntry}

theorem PartitionTableEntry.isPart_iff : p.isPart = true ↔ p.fsType ≠ 0 ∧ p.fsType ≠ 0x05 :=
  decide_eq_true_iff

theorem PartitionTableEntry.isExtended_iff : p.isExtended = true ↔ p.fsType = 0x05 :=
  decide_eq_true_iff

theorem scanEntries_cons_extended (hp : p.isExtended) : scanEntries scan hd extLba (p :: ps) g =
    (scanExtended scan p g >>= fun g => scanEntries scan hd extLba ps g) := by
  rw [scanEntries, if_pos (PartitionTableEntry.isExtended_iff.mp hp)]

theorem scanEntries_cons_prim (hp : p.isPart) : scanEntries scan hd 0 (p :: ps) g =
    (recordPrim hd 0 p g >>= fun g => scanEntries scan hd 0 ps g) := by
  obtain ⟨hne, hext⟩ := PartitionTableEntry.isPart_iff.mp hp
  rw [scanEntries, if_neg hext, if_pos hne, if_pos rfl]

theorem scanEntries_cons_logic (hp : p.isPart) (hlba : extLba ≠ 0) :
    scanEntries scan hd extLba (p :: ps) g = (recordLogic hd extLba p g >>= fun g =>
      if g.lNo ≥ 8 then .ok g else scanEntries scan hd extLba ps g) := by
  obtain ⟨hne, hext⟩ := PartitionTableEntry.isPart_iff.mp hp
  rw [scanEntries, if_neg hext, if_pos hne, if_neg hlba]

theorem scanEntries_used (g : ScanState) :
    scanEntries scan hd extLba ps g = scanEntries scan hd extLba (used ps) g := by
  induction ps generalizing g with
  | nil => rfl
  | cons p ps ih =>
    by_cases hzero : p.fsType = 0
    · have hused : used (p :: ps) = used ps := by simp [used, hzero]
      rw [hused, scanEntries, if_neg (by rw [hzero]; decide), if_neg (not_not_intro hzero)]
      exact ih g
    · have hused : used (p :: ps) = p :: used ps := by simp [used, hzero]
      rw [hused, scanEntries, scanEntries]
      simp only [ih]

theorem scanEntries_prims (hps : ∀ p ∈ ps, p.isPart) (hfew : g.pNo + ps.length ≤ 3) :
    scanEntries scan hd 0 (ps ++ qs) g = scanEntries scan hd 0 qs { g with
      pNo := g.pNo + ps.length
      partitionList := g.partitionList ++ primRecords hd g.pNo ps } := by
  induction ps generalizing g with
  | nil => simp [primRecords]
  | cons p ps ih =>
    rw [List.length_cons] at hfew
    have hrecord : recordPrim hd 0 p g = .ok { g with
        partitionList := g.partitionList ++ [⟨hd.no, .prim g.pNo, p.startLba, p.secCnt⟩]
        pNo := g.pNo + 1 } := by
      unfold recordPrim
      dsimp only
      rw [if_pos (by omega), UInt32.zero_add]
    rw [List.cons_append, scanEntries_cons_prim (hps p List.mem_cons_self), hrecord]
    refine (ih (fun q hq => hps q (List.mem_cons_of_mem _ hq)) (by dsimp only; omega)).trans ?_
    simp only [primRecords, List.append_assoc, List.singleton_append, List.length_cons]
    rw [Nat.add_assoc, Nat.add_comm 1]

end Entries

section Chain

variable {hd : Hd} {g : ScanState} {base lba : UInt32} {chain : List Ebr} {fuel : Nat}
  {q : PartitionTableEntry} {ps : List PartitionTableEntry}

theorem partitionScan_used (hlba : lba.toNat ≤ maxLba) : partitionScan hd (fuel + 1) lba g =
    scanEntries (partitionScan hd fuel) hd lba (used (hd.table lba)) g := by
  rw [partitionScan, ideRead_ok (.one hlba), ← scanEntries_used]
  rfl

/-- The scan of an extended boot record takes its logical partition. If that is the last one that
fits, the link is not followed. -/
theorem partitionScan_ebr {p : PartitionTableEntry} (hmax : lba.toNat ≤ maxLba) (hlba : lba ≠ 0)
    (hused : used (hd.table lba) = p :: ps) (hp : p.isPart) (hl : g.lNo < 8) :
    partitionScan hd (fuel + 1) lba g =
      let g' : ScanState := { g with
        lNo := g.lNo + 1
        partitionList := g.partitionList ++ logicRecords hd g.lNo [⟨lba, p⟩] }
      if g.lNo + 1 ≥ 8 then .ok g' else scanEntries (partitionScan hd fuel) hd lba ps g' := by
  rw [partitionScan_used hmax, hused, scanEntries_cons_logic hp hlba, recordLogic, if_pos hl]
  rfl

/-- The scan of a chain takes its logical partitions while there is room in `logic_parts`. -/
theorem partitionScan_chain (h : EbrChain hd base lba chain) (hlba : lba ≠ 0)
    (hbase : g.extLbaBase = base) (hne : base ≠ 0) (hl : g.lNo < 8) (hfuel : chain.length ≤ fuel) :
    partitionScan hd fuel lba g = .ok { g with
      lNo := min 8 (g.lNo + chain.length)
      partitionList := g.partitionList ++ logicRecords hd g.lNo (chain.take (8 - g.lNo)) } := by
  induction h generalizing g fuel with
  | last hmax hused hp =>
    obtain ⟨fuel, rfl⟩ : ∃ n, fuel = n + 1 := ⟨fuel - 1, by simp at hfuel; omega⟩
    rw [partitionScan_ebr hmax hlba hused hp hl, List.take_of_length_le (by simp; omega)]
    have hmin : min 8 (g.lNo + 1) = g.lNo + 1 := by omega
    simp only [List.length_singleton, hmin, scanEntries, ite_self]
  | @link lba p q rest hmax hused hp hq hnext hrest ih =>
    obtain ⟨fuel, rfl⟩ : ∃ n, fuel = n + 1 := ⟨fuel - 1, by simp at hfuel; omega⟩
    rw [List.length_cons] at hfuel ⊢
    rw [partitionScan_ebr hmax hlba hused hp hl]
    obtain ⟨room, hroom⟩ : ∃ n, 8 - g.lNo = n + 1 := ⟨7 - g.lNo, by omega⟩
    rw [hroom, List.take_succ_cons]
    by_cases hlast : g.lNo + 1 ≥ 8
    · -- The eighth logical partition: the rest of the chain is not read.
      obtain rfl : room = 0 := by omega
      have hmin : min 8 (g.lNo + (rest.length + 1)) = g.lNo + 1 := by omega
      simp only [if_pos hlast, hmin, List.take_zero]
    · have hscan := @ih { g with
        lNo := g.lNo + 1
        partitionList := g.partitionList ++ logicRecords hd g.lNo [⟨lba, p⟩] } fuel hnext hbase
        (by dsimp only; omega) (by omega)
      rw [hbase] at hscan
      simp only [if_neg hlast]
      rw [scanEntries_cons_extended hq, scanExtended, if_pos (by rw [hbase]; exact hne),
        hbase, hscan]
      have hmin : min 8 (g.lNo + 1 + rest.length) = min 8 (g.lNo + (rest.length + 1)) := by omega
      have htake : 8 - (g.lNo + 1) = room := by omega
      simp only [hmin, htake, scanEntries, List.append_assoc, logicRecords, List.singleton_append]
      rfl

theorem used_of_parts (h : ∀ p ∈ ps, ¬p.isExtended) : used ps = ps.filter (·.isPart) := by
  refine List.filter_congr fun p hp => ?_
  have hne := h p hp
  rw [PartitionTableEntry.isExtended_iff] at hne
  simp [PartitionTableEntry.isPart, hne]

theorem used_of_extended (h : ps.filter (·.isExtended) = [q]) : q.isExtended ∧ ∃ before after,
    used ps = before ++ q :: after ∧ ps.filter (·.isPart) = before ++ after := by
  obtain ⟨pre, post, rfl, hpre, hq, hpost⟩ := List.filter_eq_cons_iff.mp h
  have hpart : q.isPart = false := by
    simp [PartitionTableEntry.isPart, PartitionTableEntry.isExtended_iff.mp hq]
  have hkept : used [q] = [q] := by
    simp [used, PartitionTableEntry.isExtended_iff.mp hq]
  refine ⟨hq, pre.filter (·.isPart), post.filter (·.isPart), ?_, ?_⟩
  · rw [← used_of_parts hpre, ← used_of_parts (List.filter_eq_nil_iff.mp hpost)]
    unfold used at hkept ⊢
    rw [List.filter_append, List.filter_cons_of_pos (by simp_all)]
  · rw [List.filter_append, List.filter_cons_of_neg (by rw [hpart]; decide)]

end Chain

/-- On a well-formed disk the scan returns, and the partitions in its table are taken: the primary
ones in the order of their entries, and the logical ones in the order of the chain, the first
eight of them. They get to the end of `partition_list`, the logical ones where the extended
partition stands between the primary ones. -/
theorem partition_scan_well_formed (hd : Hd) (prims : List PartitionTableEntry) (chain : List Ebr)
    (parts : List PartRecord) (h : WellFormed hd prims chain) :
    ∃ n base before after, prims = before ++ after ∧
      ∀ fuel ≥ n, partitionScan hd fuel 0 ⟨0, 0, 0, parts⟩ = .ok ⟨base, prims.length,
        min 8 chain.length, parts ++ (primRecords hd 0 before ++ logicRecords hd 0 (chain.take 8) ++
          primRecords hd before.length after)⟩ := by
  have hparts : ∀ p ∈ prims, p.isPart := by
    rw [← h.parts]
    exact fun p hp => (List.mem_filter.mp hp).2
  have hfew := h.few
  rcases h.links with ⟨hnone, rfl⟩ | ⟨q, hone, hq, hchain⟩
  · refine ⟨1, 0, prims, [], (List.append_nil _).symm, fun fuel hfuel => ?_⟩
    obtain ⟨fuel, rfl⟩ : ∃ n, fuel = n + 1 := ⟨fuel - 1, by omega⟩
    rw [partitionScan_used (by decide), used_of_parts (List.filter_eq_nil_iff.mp hnone), h.parts,
      ← List.append_nil prims, scanEntries_prims hparts (by dsimp only; omega)]
    simp [scanEntries, primRecords, logicRecords]
  · obtain ⟨hext, before, after, hused, hsplit⟩ := used_of_extended hone
    rw [h.parts] at hsplit
    subst hsplit
    rw [List.length_append] at hfew
    refine ⟨chain.length + 1, q.startLba, before, after, rfl, fun fuel hfuel => ?_⟩
    obtain ⟨fuel, rfl⟩ : ∃ n, fuel = n + 1 := ⟨fuel - 1, by omega⟩
    rw [partitionScan_used (by decide), hused,
      scanEntries_prims (fun p hp => hparts p (List.mem_append_left _ hp)) (by dsimp only; omega),
      scanEntries_cons_extended hext, scanExtended, if_neg (not_not_intro rfl),
      partitionScan_chain hchain hq rfl hq (by dsimp only; omega) (by omega)]
    -- The rest of the master boot record is scanned also after the eighth logical partition.
    show scanEntries _ hd 0 after _ = _
    rw [← List.append_nil after,
      scanEntries_prims (fun p hp => hparts p (List.mem_append_right _ hp)) (by dsimp only; omega)]
    simp [scanEntries]

/-- A disk with these entries in its tables: the sector and the place of each, its type, where its
partition starts and how long it is. -/
def entriesDisk : List (Nat × Nat × UInt8 × UInt8 × UInt8) → Disk
  | [], _ => 0
  | (lba, i, fsType, startLba, secCnt) :: es, a =>
    let offset := 512 * lba + 446 + 16 * i
    if a = offset + 4 then fsType else if a = offset + 8 then startLba
    else if a = offset + 12 then secCnt else entriesDisk es a

/-- Two primary partitions, and between them an extended one with two logical partitions. -/
def chainedHd : Hd := ⟨0, entriesDisk [(0, 0, 0x83, 20, 5), (0, 1, 0x05, 2, 10),
  (0, 3, 0x83, 30, 6), (2, 0, 0x83, 1, 3), (2, 1, 0x05, 4, 4), (6, 0, 0x83, 1, 2)]⟩

theorem partition_scan_well_formed_chained :
    WellFormed chainedHd [⟨0x83, 20, 5⟩, ⟨0x83, 30, 6⟩] [⟨2, ⟨0x83, 1, 3⟩⟩, ⟨6, ⟨0x83, 1, 2⟩⟩] ∧
    ∃ n base before after,
      [(⟨0x83, 20, 5⟩ : PartitionTableEntry), ⟨0x83, 30, 6⟩] = before ++ after ∧
      ∀ fuel ≥ n, partitionScan chainedHd fuel 0 ⟨0, 0, 0, []⟩ = .ok ⟨base, 2, 2,
        [] ++ (primRecords chainedHd 0 before ++
          [⟨0, .logic 0, 3, 3⟩, ⟨0, .logic 1, 7, 2⟩] ++
          primRecords chainedHd before.length after)⟩ := by
  have hchain : EbrChain chainedHd 2 2 [⟨2, ⟨0x83, 1, 3⟩⟩, ⟨6, ⟨0x83, 1, 2⟩⟩] :=
    .link (q := ⟨0x05, 4, 4⟩) (by decide) (by decide +kernel) (by decide) (by decide) (by decide)
      (.last (by decide) (by decide +kernel) (by decide))
  have hwell : WellFormed chainedHd [⟨0x83, 20, 5⟩, ⟨0x83, 30, 6⟩]
      [⟨2, ⟨0x83, 1, 3⟩⟩, ⟨6, ⟨0x83, 1, 2⟩⟩] :=
    ⟨by decide +kernel, by decide, .inr ⟨⟨0x05, 2, 10⟩, by decide +kernel, by decide, hchain⟩⟩
  exact ⟨hwell, partition_scan_well_formed chainedHd _ _ [] hwell⟩

end OriginOS
