import OriginOS.Device.PartitionChain

/-! `partition_scan` with the boot sectors that it allocates. A call frees its own when its loop is
through the table, but not when the loop is left at the eighth logical partition. -/

namespace OriginOS

open Lib

/-- The globals of the scan, and how many boot sectors are allocated. -/
structure Scanning where
  globals : ScanState
  live : Nat
deriving DecidableEq, Repr

def bufferedExtended (scan : UInt32 → Scanning → Except ScanStop Scanning)
    (p : PartitionTableEntry) (s : Scanning) : Except ScanStop Scanning :=
  if s.globals.extLbaBase ≠ 0 then scan (p.startLba + s.globals.extLbaBase) s
  else scan p.startLba { s with globals := { s.globals with extLbaBase := p.startLba } }

/-- The loop of `partition_scan` and the `sys_free` behind it. -/
def bufferedEntries (scan : UInt32 → Scanning → Except ScanStop Scanning) (hd : Hd)
    (extLba : UInt32) : List PartitionTableEntry → Scanning → Except ScanStop Scanning
  | [], s => .ok { s with live := s.live - 1 }
  | p :: ps, s =>
    if p.fsType = 0x05 then do
      let s ← bufferedExtended scan p s
      bufferedEntries scan hd extLba ps s
    else if p.fsType ≠ 0 then
      if extLba = 0 then do
        let g ← recordPrim hd extLba p s.globals
        bufferedEntries scan hd extLba ps { s with globals := g }
      else do
        let g ← recordLogic hd extLba p s.globals
        if g.lNo ≥ 8 then .ok { s with globals := g }
        else bufferedEntries scan hd extLba ps { s with globals := g }
    else bufferedEntries scan hd extLba ps s

/-- `partition_scan`, with `sys_malloc` giving a buffer whenever it is asked for one. -/
def bufferedScan (hd : Hd) : Nat → UInt32 → Scanning → Except ScanStop Scanning
  | 0, _, _ => .error .deep
  | fuel + 1, extLba, s =>
    match ideRead hd.disk extLba.toNat (fun _ => 0) 1 with
    | .ok bs =>
      bufferedEntries (bufferedScan hd fuel) hd extLba (partitionTable bs)
        { s with live := s.live + 1 }
    | .error p => .error (.panic p)

section Erasure

variable {hd : Hd} {extLba : UInt32} {scan : UInt32 → Scanning → Except ScanStop Scanning}
  {scan' : UInt32 → ScanState → Except ScanStop ScanState} {ps : List PartitionTableEntry}

theorem bufferedEntries_globals (hscan : ∀ x s, scan' x s.globals = (scan x s).map (·.globals))
    (s : Scanning) : scanEntries scan' hd extLba ps s.globals =
      (bufferedEntries scan hd extLba ps s).map (·.globals) := by
  induction ps generalizing s with
  | nil => rfl
  | cons p ps ih =>
    rw [bufferedEntries, scanEntries]
    split
    · refine map_bind_comm (f := Scanning.globals) ?_ ih
      rw [bufferedExtended, scanExtended]
      split
      · exact hscan _ s
      · exact hscan _ { s with globals := { s.globals with extLbaBase := p.startLba } }
    have hid : ∀ x : Except ScanStop ScanState, x = x.map id := congrFun Except.map_id.symm
    split
    · split
      · exact map_bind_comm (hid _) fun g => ih { s with globals := g }
      · refine map_bind_comm (hid _) fun g => ?_
        dsimp only [id]
        split
        · rfl
        · exact ih { s with globals := g }
    · exact ih s

theorem bufferedScan_globals (hd : Hd) (fuel : Nat) (extLba : UInt32) (s : Scanning) :
    partitionScan hd fuel extLba s.globals =
      (bufferedScan hd fuel extLba s).map (·.globals) := by
  induction fuel generalizing extLba s with
  | zero => rfl
  | succ fuel ih =>
    rw [bufferedScan, partitionScan]
    cases ideRead hd.disk extLba.toNat (fun _ => 0) 1 with
    | ok bs => exact bufferedEntries_globals ih { s with live := s.live + 1 }
    | error p => rfl

end Erasure

/-! ### The tables that are reached -/

def linkBase (base : UInt32) (p : PartitionTableEntry) : UInt32 :=
  if base ≠ 0 then base else p.startLba

/-- The sector of the table that an extended entry leads to. -/
def linkLba (base : UInt32) (p : PartitionTableEntry) : UInt32 :=
  if base ≠ 0 then p.startLba + base else p.startLba

/-- The tables reached from entries of the sector `lba`, with all extended entries followed in
order, are on the disk and come to an end. `base` and `base'` are the bases before and after;
there are `prims` partitions in sector 0 and `logics` in the others. -/
inductive Walk (hd : Hd) : UInt32 → List PartitionTableEntry → UInt32 → UInt32 → Nat → Nat → Prop
  | nil {lba base : UInt32} : Walk hd lba [] base base 0 0
  | skip {lba base base' : UInt32} {p : PartitionTableEntry} {ps : List PartitionTableEntry}
      {prims logics : Nat} : p.fsType = 0 → Walk hd lba ps base base' prims logics →
    Walk hd lba (p :: ps) base base' prims logics
  | prim {base base' : UInt32} {p : PartitionTableEntry} {ps : List PartitionTableEntry}
      {prims logics : Nat} : p.isPart → Walk hd 0 ps base base' prims logics →
    Walk hd 0 (p :: ps) base base' (1 + prims) logics
  | logic {lba base base' : UInt32} {p : PartitionTableEntry} {ps : List PartitionTableEntry}
      {prims logics : Nat} : p.isPart → lba ≠ 0 → Walk hd lba ps base base' prims logics →
    Walk hd lba (p :: ps) base base' prims (1 + logics)
  | extended {lba base base₁ base' : UInt32} {p : PartitionTableEntry}
      {ps : List PartitionTableEntry} {prims₁ logics₁ prims logics : Nat} : p.isExtended →
    (linkLba base p).toNat ≤ maxLba →
    Walk hd (linkLba base p) (hd.table (linkLba base p)) (linkBase base p) base₁ prims₁ logics₁ →
    Walk hd lba ps base₁ base' prims logics →
    Walk hd lba (p :: ps) base base' (prims₁ + prims) (logics₁ + logics)

/-- The numbers after `prims` primary and `logics` logical partitions more, for which there is room
in the arrays. -/
structure Taken (g g' : ScanState) (prims logics : Nat) : Prop where
  pNo : g'.pNo = g.pNo + prims
  lNo : g'.lNo = g.lNo + logics
  primRoom : prims = 0 ∨ g'.pNo ≤ 3
  logicRoom : logics = 0 ∨ g'.lNo ≤ 7

theorem Taken.trans {g g₁ g' : ScanState} {prims₁ logics₁ prims logics : Nat}
    (h₁ : Taken g g₁ prims₁ logics₁) (h : Taken g₁ g' prims logics) :
    Taken g g' (prims₁ + prims) (logics₁ + logics) := by
  obtain ⟨hp₁, hl₁, hpr₁, hlr₁⟩ := h₁
  obtain ⟨hp, hl, hpr, hlr⟩ := h
  exact ⟨by omega, by omega, by omega, by omega⟩

section Returns

variable {hd : Hd} {lba : UInt32} {scan : UInt32 → Scanning → Except ScanStop Scanning}
  {p : PartitionTableEntry} {ps : List PartitionTableEntry} {s s' : Scanning}
  {g g' : ScanState} {fuel : Nat}

theorem recordPrim_ok (h : recordPrim hd lba p g = .ok g') :
    g'.extLbaBase = g.extLbaBase ∧ Taken g g' 1 0 := by
  unfold recordPrim at h
  dsimp only at h
  split at h
  · next hroom =>
    obtain rfl := Except.ok.inj h
    exact ⟨rfl, rfl, rfl, .inr (by dsimp only; omega), .inl rfl⟩
  · cases h

theorem recordLogic_ok (h : recordLogic hd lba p g = .ok g') :
    g'.extLbaBase = g.extLbaBase ∧ g'.pNo = g.pNo ∧ g'.lNo = g.lNo + 1 := by
  unfold recordLogic at h
  split at h
  · obtain rfl := Except.ok.inj h
    exact ⟨rfl, rfl, rfl⟩
  · cases h

theorem bufferedExtended_eq : bufferedExtended scan p s =
    scan (linkLba s.globals.extLbaBase p)
      { s with globals := { s.globals with extLbaBase := linkBase s.globals.extLbaBase p } } := by
  unfold bufferedExtended linkLba linkBase
  split <;> rfl

/-- What a part of the scan does when it returns: it frees its buffers or has more of them than
before, and in the first case it has walked through all tables. -/
def Walked (hd : Hd) (lba : UInt32) (ps : List PartitionTableEntry) (s s' : Scanning)
    (before after : Nat) : Prop :=
  before ≤ after ∧ (after = before → ∃ prims logics,
    Walk hd lba ps s.globals.extLbaBase s'.globals.extLbaBase prims logics ∧
      Taken s.globals s'.globals prims logics)

theorem bufferedEntries_walked
    (hscan : ∀ x s s', scan x s = .ok s' →
      x.toNat ≤ maxLba ∧ Walked hd x (hd.table x) s s' s.live s'.live)
    (h : bufferedEntries scan hd lba ps s = .ok s') :
    Walked hd lba ps s s' s.live (s'.live + 1) := by
  induction ps generalizing s with
  | nil =>
    obtain rfl := Except.ok.inj h
    exact ⟨by dsimp only; omega, fun _ => ⟨0, 0, .nil, rfl, rfl, .inl rfl, .inl rfl⟩⟩
  | cons p ps ih =>
    rw [bufferedEntries] at h
    split at h
    · next hext =>
      obtain ⟨s₁, hlink, hrest⟩ := exists_of_bind_eq_ok h
      rw [bufferedExtended_eq] at hlink
      obtain ⟨hmax, hmono₁, hwalk₁⟩ := hscan _ _ _ hlink
      obtain ⟨hmono, hwalk⟩ := ih hrest
      dsimp only at hmono₁ hwalk₁
      refine ⟨by omega, fun hlive => ?_⟩
      obtain ⟨prims₁, logics₁, hw₁, ht₁⟩ := hwalk₁ (by omega)
      obtain ⟨prims, logics, hw, ht⟩ := hwalk (by omega)
      refine ⟨prims₁ + prims, logics₁ + logics,
        .extended (PartitionTableEntry.isExtended_iff.mpr hext) hmax hw₁ hw, Taken.trans ?_ ht⟩
      exact ⟨ht₁.pNo, ht₁.lNo, ht₁.primRoom, ht₁.logicRoom⟩
    next hext =>
    split at h
    · next hne =>
      have hpart : p.isPart := PartitionTableEntry.isPart_iff.mpr ⟨hne, hext⟩
      split at h
      · next hzero =>
        subst hzero
        obtain ⟨g, hrec, hrest⟩ := exists_of_bind_eq_ok h
        obtain ⟨hbase, ht₁⟩ := recordPrim_ok hrec
        obtain ⟨hmono, hwalk⟩ := ih hrest
        refine ⟨hmono, fun hlive => ?_⟩
        obtain ⟨prims, logics, hw, ht⟩ := hwalk hlive
        exact ⟨1 + prims, logics, .prim hpart (hbase ▸ hw), Nat.zero_add logics ▸ ht₁.trans ht⟩
      · next hzero =>
        obtain ⟨g, hrec, hrest⟩ := exists_of_bind_eq_ok h
        obtain ⟨hbase, hp, hl⟩ := recordLogic_ok hrec
        split at hrest
        · -- The loop is left, and the buffer stays allocated.
          obtain rfl := Except.ok.inj hrest
          exact ⟨by dsimp only; omega, fun hlive => absurd hlive (by dsimp only; omega)⟩
        · next hroom =>
          obtain ⟨hmono, hwalk⟩ := ih hrest
          refine ⟨hmono, fun hlive => ?_⟩
          obtain ⟨prims, logics, hw, ht⟩ := hwalk hlive
          have ht₁ : Taken s.globals g 0 1 := ⟨hp, hl, .inl rfl, .inr (by omega)⟩
          exact ⟨prims, 1 + logics, .logic hpart hzero (hbase ▸ hw),
            Nat.zero_add prims ▸ ht₁.trans ht⟩
    · next hzero =>
      obtain ⟨hmono, hwalk⟩ := ih h
      refine ⟨hmono, fun hlive => ?_⟩
      obtain ⟨prims, logics, hw, ht⟩ := hwalk hlive
      exact ⟨prims, logics, .skip (not_not.mp hzero) hw, ht⟩

theorem bufferedScan_walked (h : bufferedScan hd fuel lba s = .ok s') :
    lba.toNat ≤ maxLba ∧ Walked hd lba (hd.table lba) s s' s.live s'.live := by
  induction fuel generalizing lba s s' with
  | zero => cases h
  | succ fuel ih =>
    rw [bufferedScan] at h
    cases hread : ideRead hd.disk lba.toNat (fun _ => 0) 1 with
    | error p =>
      rw [hread] at h
      cases h
    | ok bs =>
      obtain ⟨htrans, rfl⟩ := ideRead_eq_ok.mp hread
      rw [hread] at h
      obtain ⟨hmono, hwalk⟩ := bufferedEntries_walked (fun x s s' hs => ih hs) h
      dsimp only at hmono hwalk
      exact ⟨by have := htrans.2; omega, by omega, fun hlive => hwalk (by omega)⟩

end Returns

section Walks

variable {hd : Hd} {lba base base' : UInt32} {ps : List PartitionTableEntry} {prims logics : Nat}
  {fuel : Nat} {s : Scanning}

theorem bufferedScan_succ (hmax : lba.toNat ≤ maxLba) : bufferedScan hd (fuel + 1) lba s =
    bufferedEntries (bufferedScan hd fuel) hd lba (hd.table lba)
      { s with live := s.live + 1 } := by
  rw [bufferedScan, ideRead_ok (.one hmax)]
  rfl

/-- Where the walk ends and there is room for the partitions, the scan returns and the buffers are
free again. -/
theorem bufferedEntries_of_walk (h : Walk hd lba ps base base' prims logics) {p l : Nat}
    (hp : p + prims ≤ 3) (hl : l + logics ≤ 7) (parts : List PartRecord) (live : Nat) :
    ∃ n parts', ∀ fuel ≥ n, bufferedEntries (bufferedScan hd fuel) hd lba ps
      ⟨⟨base, p, l, parts⟩, live + 1⟩ = .ok ⟨⟨base', p + prims, l + logics, parts'⟩, live⟩ := by
  induction h generalizing p l parts live with
  | nil => exact ⟨0, parts, fun fuel _ => rfl⟩
  | skip hzero _ ih =>
    obtain ⟨n, parts', hrun⟩ := ih hp hl parts live
    refine ⟨n, parts', fun fuel hfuel => ?_⟩
    rw [bufferedEntries, if_neg (by rw [hzero]; decide), if_neg (not_not_intro hzero)]
    exact hrun fuel hfuel
  | @prim base base' e ps prims logics hpart _ ih =>
    obtain ⟨hne, hext⟩ := PartitionTableEntry.isPart_iff.mp hpart
    obtain ⟨n, parts', hrun⟩ := @ih (p + 1) l (by omega) hl
      (parts ++ [⟨hd.no, .prim p, 0 + e.startLba, e.secCnt⟩]) live
    refine ⟨n, parts', fun fuel hfuel => ?_⟩
    have hrec : recordPrim hd 0 e ⟨base, p, l, parts⟩ = .ok ⟨base, p + 1, l,
        parts ++ [⟨hd.no, .prim p, 0 + e.startLba, e.secCnt⟩]⟩ := if_pos (by dsimp only; omega)
    rw [bufferedEntries, if_neg hext, if_pos hne, if_pos rfl, hrec, ← Nat.add_assoc]
    exact hrun fuel hfuel
  | @logic lba base base' e ps prims logics hpart hlba _ ih =>
    obtain ⟨hne, hext⟩ := PartitionTableEntry.isPart_iff.mp hpart
    obtain ⟨n, parts', hrun⟩ := @ih p (l + 1) hp (by omega)
      (parts ++ [⟨hd.no, .logic l, lba + e.startLba, e.secCnt⟩]) live
    refine ⟨n, parts', fun fuel hfuel => ?_⟩
    have hrec : recordLogic hd lba e ⟨base, p, l, parts⟩ = .ok ⟨base, p, l + 1,
        parts ++ [⟨hd.no, .logic l, lba + e.startLba, e.secCnt⟩]⟩ := if_pos (by dsimp only; omega)
    rw [bufferedEntries, if_neg hext, if_pos hne, if_neg hlba, hrec, ← Nat.add_assoc]
    refine (if_neg ?_).trans (hrun fuel hfuel)
    dsimp only
    omega
  | @extended lba base base₁ base' e ps prims₁ logics₁ prims logics hext hmax _ _ ih₁ ih =>
    obtain ⟨n₁, parts₁, hrun₁⟩ := @ih₁ p l (by omega) (by omega) parts (live + 1)
    obtain ⟨n, parts', hrun⟩ := @ih (p + prims₁) (l + logics₁) (by omega) (by omega) parts₁ live
    refine ⟨max (n₁ + 1) n, parts', fun fuel hfuel => ?_⟩
    obtain ⟨fuel, rfl⟩ : ∃ m, fuel = m + 1 := ⟨fuel - 1, by omega⟩
    rw [bufferedEntries, if_pos (PartitionTableEntry.isExtended_iff.mp hext), bufferedExtended_eq,
      bufferedScan_succ hmax, hrun₁ fuel (by omega), ← Nat.add_assoc, ← Nat.add_assoc]
    exact hrun (fuel + 1) (by omega)

end Walks

def fourHd : Hd := ⟨0, entriesDisk [(0, 0, 0x83, 1, 1), (0, 1, 0x83, 2, 1), (0, 2, 0x83, 3, 1),
  (0, 3, 0x83, 4, 1)]⟩

/-- An extended boot record that is linked to itself. -/
def loopHd : Hd := ⟨0, entriesDisk [(0, 0, 0x05, 1, 1), (1, 0, 0x05, 0, 1)]⟩

/-- Eight logical partitions in two boot records. -/
def eightHd : Hd := ⟨0, entriesDisk [(0, 0, 0x05, 1, 9), (0, 1, 0x05, 1, 9), (1, 0, 0x83, 2, 1),
  (1, 1, 0x83, 3, 1), (1, 2, 0x83, 4, 1), (1, 3, 0x83, 5, 1), (2, 0, 0x83, 2, 1),
  (2, 1, 0x83, 3, 1), (2, 2, 0x83, 4, 1), (2, 3, 0x83, 5, 1)]⟩

theorem bufferedScan_loop (fuel : Nat) (s : Scanning) (hbase : s.globals.extLbaBase = 1) :
    bufferedScan loopHd fuel 1 s = .error .deep := by
  induction fuel generalizing s with
  | zero => rfl
  | succ fuel ih =>
    have htable : loopHd.table 1 = [⟨0x05, 0, 1⟩, ⟨0, 0, 0⟩, ⟨0, 0, 0⟩, ⟨0, 0, 0⟩] := by
      decide +kernel
    rw [bufferedScan_succ (by decide), htable, bufferedEntries, if_pos rfl, bufferedExtended_eq,
      show linkLba _ _ = 1 by rw [hbase]; rfl, ih _ (by rw [hbase]; rfl)]
    rfl

end OriginOS
