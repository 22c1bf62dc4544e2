import OriginOS.Kernel.PageSteps

/-! `page_table_add` on an arbitrary page directory that maps itself: the page that it maps, and the
pages that it leaves as they are. -/

namespace OriginOS

open Lib

/-- Page `vp` is mapped to the frame `p`, for user and writing, by the page table entry at `e`; the
walk of every page that does not read this entry finds what it found before; and the other pages of
a new page table are not mapped. -/
structure MapsOnly (s t : MemState) (vp p e : Nat) : Prop where
  entry : entry t.phys t.cr3 vp = some e
  maps : ∃ m, lookup t.phys t.cr3 vp = some m ∧ m.frame = p ∧ m.allowed = 0b111
  others : ∀ u < 1023 * 1024, ¬ Reads t.phys t.cr3 u e →
    lookup t.phys t.cr3 u = lookup s.phys s.cr3 u
  table : ¬ Present (pde s.phys s.cr3 (vp / 1024)) → ∀ u, u / 1024 = vp / 1024 → u ≠ vp →
    lookup t.phys t.cr3 u = none

/-- `page_table_add` may be called for `v` and `p`: the directory maps itself, the page is not
mapped, and a frame that `palloc` gives for a page table is one that nothing is mapped to. -/
structure AddReady (s : MemState) (v p : Nat) : Prop where
  self : SelfMapped s.phys s.cr3
  dir : s.cr3 % 4096 = 0
  page : v % 4096 = 0 ∧ v < 0xffc00000
  frame : p % 4096 = 0 ∧ p < 2 ^ 32
  absent : target s.phys s.cr3 (v / 4096) = none
  fresh : ¬ Present (pde s.phys s.cr3 (v / 4096 / 1024)) → ∃ q pool,
    Mem.palloc .kernel s = .ok (q, s.setPool pool) ∧ q % 4096 = 0 ∧ q < 2 ^ 32 ∧
      ∀ u < 1024 * 1024, target s.phys s.cr3 u ≠ some q

/-- The directory entry of `v` allows user and writing if it is present, and no entry but the last
one points to the directory if it is not. -/
structure DirReady (s : MemState) (v : Nat) : Prop where
  allows : Present (pde s.phys s.cr3 (v / 4096 / 1024)) →
    pde s.phys s.cr3 (v / 4096 / 1024) % 8 = 0b111
  noAlias : ¬ Present (pde s.phys s.cr3 (v / 4096 / 1024)) → ∀ k < 1023,
    Present (pde s.phys s.cr3 k) → frameOf (pde s.phys s.cr3 k) ≠ s.cr3

section Maps

variable {s : MemState} {v p : Nat}

theorem allowed_full (f w : Nat) : Mapping.allowed ⟨f, w % 4096, 0b111⟩ = w % 8 := by
  have hand : w % 4096 &&& 0b111 = w % 4096 % 8 := Nat.and_two_pow_sub_one_eq_mod _ 3
  have hand' : w % 8 &&& 0b111 = w % 8 % 8 := Nat.and_two_pow_sub_one_eq_mod _ 3
  unfold Mapping.allowed
  dsimp only
  rw [hand, show w % 4096 % 8 = w % 8 by omega, hand', Nat.mod_mod]

theorem load32_entry {p : Nat} (hp : p % 4096 = 0 ∧ p < 2 ^ 32) (mem : Nat → UInt8) (e : Nat) :
    load32 (store32 mem e (Mem.pageEntry p)) e = p + 7 := by
  rw [Mem.pageEntry_eq hp.1, load32_store32_self (by omega)]

theorem AddReady.stored (h : AddReady s v p)
    (hpde : Present (pde s.phys s.cr3 (v / 4096 / 1024))) :
    ∃ e, Mem.pageTableAdd v p s = .ok ((), s.setPhys (store32 s.phys e (Mem.pageEntry p))) ∧
      e % 4 = 0 ∧ entry (store32 s.phys e (Mem.pageEntry p)) s.cr3 (v / 4096) = some e ∧
      lookup (store32 s.phys e (Mem.pageEntry p)) s.cr3 (v / 4096) =
        some ⟨p, pde s.phys s.cr3 (v / 4096 / 1024) % 4096, 0b111⟩ := by
  have hv := h.page
  have hframe := h.frame
  have hdir := h.dir
  have he : entry s.phys s.cr3 (v / 4096) = some _ := entry_of_present hpde
  generalize frameOf (pde s.phys s.cr3 (v / 4096 / 1024)) + 4 * (v / 4096 % 1024) = e at he
  have habsent : ¬ Present (load32 s.phys e) := by
    intro hp
    have := h.absent
    rw [target_of_entry he, if_pos hp] at this
    exact nomatch this
  have hemod : e % 4 = 0 := Reads.aligned (.inr he) hdir
  -- the entry that is written is not the directory entry of `v`, since that one is present
  have hne : s.cr3 + 4 * (v / 4096 / 1024) ≠ e := fun heq => habsent (heq ▸ hpde)
  have hkeep : pde (store32 s.phys e (Mem.pageEntry p)) s.cr3 (v / 4096 / 1024) =
      pde s.phys s.cr3 (v / 4096 / 1024) := load32_store32_of_ne hemod (by omega) hne
  have hentry : entry (store32 s.phys e (Mem.pageEntry p)) s.cr3 (v / 4096) = some e :=
    (entry_congr hkeep).trans he
  have hload := load32_entry h.frame s.phys e
  refine ⟨e, Mem.pageTableAdd_ok h.self (by omega) he habsent p, hemod, hentry, ?_⟩
  rw [lookup_of_entry hentry (by rw [hload, Present]; omega), hload, hkeep,
    frameOf_of_aligned hframe.1 (by decide), show (p + 7) % 4096 = 0b111 by omega]

theorem AddReady.present (h : AddReady s v p) (hd : DirReady s v)
    (hpde : Present (pde s.phys s.cr3 (v / 4096 / 1024))) :
    ∃ t e, Mem.pageTableAdd v p s = .ok ((), t) ∧ MapsOnly s t (v / 4096) p e := by
  obtain ⟨e, hadd, hemod, hentry, hlookup⟩ := h.stored hpde
  refine ⟨_, e, hadd, hentry, ⟨_, hlookup, rfl, (allowed_full _ _).trans (hd.allows hpde)⟩,
    fun u hu hreads => (lookup_congr fun a ha => ?_).symm, fun h => absurd hpde h⟩
  have hae : a ≠ e := by
    rintro rfl
    exact hreads ha
  exact (load32_store32_of_ne hemod (ha.aligned h.dir) hae).symm

section NewTable

variable {mem : Nat → UInt8} {dir i q j w : Nat}

/-- The directory, after a new page table has been put in and an entry in it written. -/
theorem pde_newTable (hdir : dir % 4096 = 0) (hq : q % 4096 = 0 ∧ q < 2 ^ 32) (hne : q ≠ dir)
    (hj : j < 1024) {k : Nat} (hk : k < 1024) :
    pde (store32 (FrameInv.withTable mem dir i q) (q + 4 * j) w) dir k =
      if k = i then q + 7 else pde mem dir k := by
  have hout : pde (store32 (FrameInv.withTable mem dir i q) (q + 4 * j) w) dir k =
      load32 (store32 mem (dir + 4 * i) (Mem.pageEntry q)) (dir + 4 * k) := by
    refine (load32_store32_of_disjoint (by omega)).trans (load32_congr fun b hb hb' => ?_)
    exact fill_apply_of_not (by omega)
  rw [hout]
  split
  · next heq => rw [heq, load32_entry hq]
  · next hki => exact load32_store32_of_ne (by omega) (by omega) (by omega)

/-- The words of another frame than the directory and the new page table stay as they are. -/
theorem load32_newTable (hq : q % 4096 = 0) (hdir : dir % 4096 = 0) (hi : i < 1024) (hj : j < 1024)
    {f k : Nat} (hf : f % 4096 = 0) (hfq : f ≠ q) (hfdir : f ≠ dir) (hk : k < 1024) :
    load32 (store32 (FrameInv.withTable mem dir i q) (q + 4 * j) w) (f + 4 * k) =
      load32 mem (f + 4 * k) := by
  refine (load32_store32_of_disjoint (by omega)).trans (load32_congr fun b hb hb' => ?_)
  rw [FrameInv.withTable, fill_apply_of_not (by omega), store32_apply_of_not (by omega)]

end NewTable

/-- There is no page table for `v`: the new one is in a frame that is neither the directory nor a
page table. -/
theorem AddReady.added (h : AddReady s v p)
    (hpde : ¬ Present (pde s.phys s.cr3 (v / 4096 / 1024))) :
    ∃ q pool, (q % 4096 = 0 ∧ q < 2 ^ 32) ∧ q ≠ s.cr3 ∧
      (∀ k < 1024, Present (pde s.phys s.cr3 k) → frameOf (pde s.phys s.cr3 k) ≠ q) ∧
      Mem.pageTableAdd v p s = .ok ((), (s.setPool pool).setPhys
        (store32 (FrameInv.withTable s.phys s.cr3 (v / 4096 / 1024) q) (q + 4 * (v / 4096 % 1024))
          (Mem.pageEntry p))) := by
  obtain ⟨q, pool, hpalloc, hq, hq32, hunused⟩ := h.fresh hpde
  have htable : ∀ k < 1024, Present (pde s.phys s.cr3 k) → frameOf (pde s.phys s.cr3 k) ≠ q := by
    intro k hk hp heq
    have := h.self.target_window hk hp
    rw [heq] at this
    exact hunused _ (by omega) this
  have hne : q ≠ s.cr3 := fun heq =>
    htable 1023 (by omega) h.self.present (h.self.frame.trans heq.symm)
  exact ⟨q, pool, ⟨hq, hq32⟩, hne, htable,
    Mem.pageTableAdd_newTable h.self h.page.2 h.dir hpde hpalloc hq hq32 hne p⟩

theorem AddReady.newTable (h : AddReady s v p) (hd : DirReady s v)
    (hpde : ¬ Present (pde s.phys s.cr3 (v / 4096 / 1024))) :
    ∃ t e, Mem.pageTableAdd v p s = .ok ((), t) ∧ MapsOnly s t (v / 4096) p e := by
  have hv := h.page
  have hdir := h.dir
  have hframe := h.frame
  obtain ⟨q, pool, ⟨hq, hq32⟩, hne, htable, hadd⟩ := h.added hpde
  set i := v / 4096 / 1024 with hi
  set j := v / 4096 % 1024 with hj
  have hi' : i < 1023 := by omega
  set mem := store32 (FrameInv.withTable s.phys s.cr3 i q) (q + 4 * j) (Mem.pageEntry p) with hmem
  have hnew : ∀ {k}, k < 1024 → pde mem s.cr3 k = if k = i then q + 7 else pde s.phys s.cr3 k :=
    fun hk => pde_newTable hdir ⟨hq, hq32⟩ hne (by omega) hk
  have hentry : ∀ u, u / 1024 = i → entry mem s.cr3 u = some (q + 4 * (u % 1024)) := by
    intro u hu
    have hpde' : pde mem s.cr3 (u / 1024) = q + 7 := by rw [hnew (by omega), if_pos hu]
    have hp : Present (pde mem s.cr3 (u / 1024)) := by
      rw [hpde', Present]
      omega
    rw [entry_of_present hp, hpde', frameOf_of_aligned hq (by decide)]
  have hload : load32 mem (q + 4 * j) = p + 7 := load32_entry h.frame _ _
  have hclear : ∀ u, u / 1024 = i → u % 1024 ≠ j → lookup mem s.cr3 u = none := by
    intro u hui huj
    have hzero : load32 mem (q + 4 * (u % 1024)) = 0 :=
      (load32_store32_of_disjoint (by omega)).trans (load32_fill_zero (by omega))
    rw [lookup_eq_none, target_of_entry (hentry u hui), hzero]
    rfl
  refine ⟨_, q + 4 * j, hadd, hentry _ rfl, ⟨_, lookup_of_entry (hentry _ rfl) ?_, ?_, ?_⟩,
    fun u hu hreads => ?_,
    fun _ u hu hne => hclear u hu (by omega)⟩
  · show Present (load32 mem (q + 4 * j))
    rw [hload, Present]
    omega
  · show frameOf (load32 mem (q + 4 * j)) = p
    rw [hload]
    exact frameOf_of_aligned h.frame.1 (by decide)
  · show Mapping.allowed ⟨_, pde mem s.cr3 i % 4096, load32 mem (q + 4 * j) % 4096⟩ = 0b111
    rw [hload, show (p + 7) % 4096 = 0b111 by omega, hnew (by omega), if_pos rfl]
    rw [allowed_full]
    omega
  · show lookup mem s.cr3 u = lookup s.phys s.cr3 u
    by_cases hui : u / 1024 = i
    · have huj : u % 1024 ≠ j := fun heq => hreads (.inr (heq ▸ hentry u hui))
      rw [hclear u hui huj, eq_comm, lookup_eq_none, target, entry, hui]
      simp only [if_neg hpde]
    · refine lookup_congr fun a ha => ?_
      rcases ha with rfl | ha
      · exact (hnew (by omega)).trans (if_neg hui)
      · obtain ⟨hp, rfl⟩ := entry_eq_some.mp ha
        exact load32_newTable hq hdir (by omega) (by omega) (frameOf_mod _)
          (htable _ (by omega) hp) (hd.noAlias hpde _ (by omega) hp) (by omega)

/-- A directory entry without the user or the writable bit keeps the page from being used so. -/
theorem AddReady.not_of_bits (h : AddReady s v p)
    (hpde : Present (pde s.phys s.cr3 (v / 4096 / 1024)))
    (hbits : pde s.phys s.cr3 (v / 4096 / 1024) % 8 ≠ 0b111) :
    ∃ t, Mem.pageTableAdd v p s = .ok ((), t) ∧ ∀ e, ¬ MapsOnly s t (v / 4096) p e := by
  obtain ⟨e, hadd, -, -, hlookup⟩ := h.stored hpde
  refine ⟨_, hadd, fun e' hmaps => ?_⟩
  obtain ⟨m, hm, -, hallowed⟩ := hmaps.maps
  rw [← Option.some.inj (hlookup.symm.trans hm), allowed_full] at hallowed
  exact hbits hallowed

/-- A second entry for the directory makes the new directory entry a page table entry, too. -/
theorem AddReady.not_of_alias (h : AddReady s v p)
    (hpde : ¬ Present (pde s.phys s.cr3 (v / 4096 / 1024))) {k : Nat} (hk : k < 1023)
    (hp : Present (pde s.phys s.cr3 k)) (halias : frameOf (pde s.phys s.cr3 k) = s.cr3) :
    ∃ t, Mem.pageTableAdd v p s = .ok ((), t) ∧ ∀ e, ¬ MapsOnly s t (v / 4096) p e := by
  have hv := h.page
  have hdir := h.dir
  obtain ⟨q, pool, ⟨hq, hq32⟩, hne, htable, hadd⟩ := h.added hpde
  set i := v / 4096 / 1024 with hi
  set j := v / 4096 % 1024 with hj
  set mem := store32 (FrameInv.withTable s.phys s.cr3 i q) (q + 4 * j) (Mem.pageEntry p) with hmem
  have hnew : ∀ {n}, n < 1024 → pde mem s.cr3 n = if n = i then q + 7 else pde s.phys s.cr3 n :=
    fun hn => pde_newTable hdir ⟨hq, hq32⟩ hne (by omega) hn
  have hki : k ≠ i := fun heq => hpde (heq ▸ hp)
  have hkpde : pde mem s.cr3 k = pde s.phys s.cr3 k := (hnew (by omega)).trans (if_neg hki)
  refine ⟨_, hadd, fun e hmaps => ?_⟩
  -- the page whose table is the directory, at the place of the new directory entry
  have hdiv : (1024 * k + i) / 1024 = k := by omega
  have hmod : (1024 * k + i) % 1024 = i := by omega
  have hentry : ∀ m : Nat → UInt8, pde m s.cr3 k = pde s.phys s.cr3 k →
      entry m s.cr3 (1024 * k + i) = some (s.cr3 + 4 * i) := by
    intro m hm
    rw [entry_of_present (by rw [hdiv, hm]; exact hp), hdiv, hmod, hm, halias]
  have hold : lookup s.phys s.cr3 (1024 * k + i) = none := by
    rw [lookup_eq_none, target_of_entry (hentry _ rfl)]
    exact if_neg hpde
  have he : e = q + 4 * j := by
    have hpdei : pde mem s.cr3 i = q + 7 := (hnew (by omega)).trans (if_pos rfl)
    have := (entry_eq_some.mp hmaps.entry).2
    rw [show pde ((s.setPool pool).setPhys mem).phys ((s.setPool pool).setPhys mem).cr3
      (v / 4096 / 1024)
      = q + 7 from hpdei, frameOf_of_aligned hq (by decide)] at this
    exact this
  have hload : load32 mem (s.cr3 + 4 * i) = q + 7 := (hnew (by omega)).trans (if_pos rfl)
  have hnow : lookup mem s.cr3 (1024 * k + i) ≠ none := by
    rw [Ne, lookup_eq_none, target_of_entry (hentry mem hkpde), hload,
      if_pos (by rw [Present]; omega)]
    exact Option.some_ne_none _
  refine hnow ((hmaps.others _ (by omega) fun hreads => ?_).trans hold)
  rcases hreads with heq | heq
  · have heq : e = s.cr3 + 4 * ((1024 * k + i) / 1024) := heq
    omega
  · have heq := Option.some.inj ((hentry mem hkpde).symm.trans heq)
    omega

end Maps

/-- `page_table_add` maps one page and nothing else, on a directory whose entry for the page is a
full one or, when it has to make a page table, that has no second entry for itself. -/
theorem page_table_add_maps_only (s : MemState) (v p : Nat) (h : AddReady s v p)
    (hd : DirReady s v) :
    ∃ t e, Mem.pageTableAdd v p s = .ok ((), t) ∧ MapsOnly s t (v / 4096) p e := by
  by_cases hpde : Present (pde s.phys s.cr3 (v / 4096 / 1024))
  · exact h.present hd hpde
  · exact h.newTable hd hpde

/-- A memory with the page directory at 0x1000, all of whose words are 0 but its last entry and the
given one, and with frames to give. -/
def tableMemory (i w : Nat) : MemState where
  ndebug := false
  phys := ofWords fun k => if k = 0x1ffc / 4 then 0x1007 else if k = 0x400 + i then w else 0
  cr3 := 0x1000
  pool
    | .kernel => ⟨⟨1, 0xc009a000, fun _ => 0⟩, 0x200000, 0x8000⟩
    | .user => ⟨⟨1, 0xc009a001, fun _ => 0⟩, 0x208000, 0x8000⟩
  lock _ := lockInit
  kernelVaddr := ⟨⟨1, 0xc009a002, fun _ => 0⟩, 0xc0100000⟩
  kBlockDescs := 0xc0003000
  task _ := ⟨0xc0101000, ⟨⟨1, 0xc0102000, fun _ => 0⟩, 0x8048000⟩, 0⟩
  runningThread := 0xc009e000

section TableMemory

variable {i w : Nat}

theorem load32_tableMemory (hw : w < 2 ^ 32) {a : Nat} (ha : a % 4 = 0) :
    load32 (tableMemory i w).phys a =
      if a = 0x1ffc then 0x1007 else if a = 0x1000 + 4 * i then w else 0 := by
  obtain ⟨k, rfl⟩ : ∃ k, a = 4 * k := ⟨a / 4, by omega⟩
  refine (load32_ofWords ?_).trans ?_
  · split
    · decide
    · split
      · exact hw
      · decide
  · congr 1
    · exact propext (by omega)
    · congr 1
      exact propext (by omega)

theorem pde_tableMemory (hw : w < 2 ^ 32) (k : Nat) : pde (tableMemory i w).phys 0x1000 k =
    if k = 1023 then 0x1007 else if k = i then w else 0 := by
  refine (load32_tableMemory hw (by omega)).trans ?_
  congr 1
  · exact propext (by omega)
  · congr 1
    exact propext (by omega)

theorem target_tableMemory (hw : w < 2 ^ 32) {u f : Nat}
    (h : target (tableMemory i w).phys 0x1000 u = some f) :
    f = 0x1000 ∨ Present w ∧ f = frameOf w := by
  obtain ⟨e, he, hp, rfl⟩ := target_eq_some.mp h
  rw [load32_tableMemory hw (Reads.aligned (.inr he) (by decide))] at hp ⊢
  by_cases hlast : e = 0x1ffc
  · rw [if_pos hlast]
    exact .inl rfl
  rw [if_neg hlast] at hp ⊢
  by_cases hgiven : e = 0x1000 + 4 * i
  · rw [if_pos hgiven] at hp ⊢
    exact .inr ⟨hp, rfl⟩
  · rw [if_neg hgiven] at hp
    exact absurd hp (by decide)

theorem tableMemory_selfMapped (hw : w < 2 ^ 32) :
    SelfMapped (tableMemory i w).phys (tableMemory i w).cr3 := by
  have hpde : pde (tableMemory i w).phys 0x1000 1023 = 0x1007 :=
    (pde_tableMemory hw 1023).trans (if_pos rfl)
  constructor
  · show Present (pde (tableMemory i w).phys 0x1000 1023)
    rw [hpde]
    decide
  · show frameOf (pde (tableMemory i w).phys 0x1000 1023) = 0x1000
    rw [hpde]
    rfl

theorem tableMemory_ready (hw : w < 2 ^ 32) (hframe : frameOf w ≠ 0x200000)
    (habsent : target (tableMemory i w).phys 0x1000 0x8048 = none) :
    AddReady (tableMemory i w) 0x8048000 0x208000 := by
  have hpalloc : Mem.palloc .kernel (tableMemory i w) = .ok (0x200000, (tableMemory i w).setPool
      (Function.update (tableMemory i w).pool .kernel
        (((tableMemory i w).pool .kernel).put 0 true))) := by
    unfold Mem.palloc
    have hfirst := palloc_first (p := (tableMemory i w).pool .kernel) (k := 0) false
      (show 0 < 8 * 1 by decide) (fun _ => nofun)
      (show (0 : UInt8).toBitVec.getLsbD 0 = false by decide)
    rw [Mem.read_bind, show (tableMemory i w).ndebug = false from rfl, hfirst]
    rfl
  refine ⟨tableMemory_selfMapped hw, show 0x1000 % 4096 = 0 by decide, by decide, by decide,
    habsent, fun _ => ⟨0x200000, _, hpalloc, by decide, by decide, fun u _ hu => ?_⟩⟩
  rcases target_tableMemory hw hu with h | ⟨-, h⟩
  · exact absurd h (by decide)
  · exact hframe h.symm

end TableMemory

theorem page_table_add_maps_first :
    ∃ t e, Mem.pageTableAdd 0x8048000 0x208000 (tableMemory 0 0) = .ok ((), t) ∧
      MapsOnly (tableMemory 0 0) t 0x8048 0x208000 e := by
  have hpde : pde (tableMemory 0 0).phys 0x1000 32 = 0 := pde_tableMemory (by decide) 32
  have hready : AddReady (tableMemory 0 0) 0x8048000 0x208000 := by
    refine tableMemory_ready (by decide) (by decide) ?_
    unfold target entry
    rw [show 0x8048 / 1024 = 32 from rfl, hpde]
    rfl
  refine page_table_add_maps_only _ 0x8048000 0x208000 hready ⟨fun hp => ?_, fun _ k hk hp => ?_⟩
  · rw [show pde (tableMemory 0 0).phys (tableMemory 0 0).cr3 (0x8048000 / 4096 / 1024) = 0 from
      hpde] at hp
    exact absurd hp (by decide)
  · have hzero : pde (tableMemory 0 0).phys 0x1000 k = 0 := by
      rw [pde_tableMemory (by decide), if_neg (by omega)]
      split <;> rfl
    rw [show pde (tableMemory 0 0).phys (tableMemory 0 0).cr3 k = 0 from hzero] at hp
    exact absurd hp (by decide)

/-- With a second entry for the directory, here number 5, the new directory entry is also the entry
of a page, which is now mapped to the page table. With a directory entry that only has the present
bit, the page is mapped neither for user nor for writing. -/
theorem page_table_add_maps_more :
    (∃ t, AddReady (tableMemory 5 0x1007) 0x8048000 0x208000 ∧
      Mem.pageTableAdd 0x8048000 0x208000 (tableMemory 5 0x1007) = .ok ((), t) ∧
      ∀ e, ¬ MapsOnly (tableMemory 5 0x1007) t 0x8048 0x208000 e) ∧
    ∃ t, AddReady (tableMemory 32 0x2001) 0x8048000 0x208000 ∧
      Mem.pageTableAdd 0x8048000 0x208000 (tableMemory 32 0x2001) = .ok ((), t) ∧
      ∀ e, ¬ MapsOnly (tableMemory 32 0x2001) t 0x8048 0x208000 e := by
  constructor
  · have hpde := pde_tableMemory (i := 5) (w := 0x1007) (by decide)
    have hno : ¬ Present (pde (tableMemory 5 0x1007).phys 0x1000 32) := by
      rw [hpde]
      decide
    have hready : AddReady (tableMemory 5 0x1007) 0x8048000 0x208000 := by
      refine tableMemory_ready (by decide) (by decide) ?_
      unfold target entry
      rw [show 0x8048 / 1024 = 32 from rfl, hpde]
      rfl
    have hfive : pde (tableMemory 5 0x1007).phys 0x1000 5 = 0x1007 := hpde 5
    obtain ⟨t, hadd, hnot⟩ := hready.not_of_alias hno (k := 5) (by decide)
      (by rw [show pde _ (tableMemory 5 0x1007).cr3 5 = _ from hfive]; decide)
      (by rw [show pde _ (tableMemory 5 0x1007).cr3 5 = _ from hfive]; rfl)
    exact ⟨t, hready, hadd, hnot⟩
  · have hpde : pde (tableMemory 32 0x2001).phys 0x1000 32 = 0x2001 :=
      pde_tableMemory (by decide) 32
    have hready : AddReady (tableMemory 32 0x2001) 0x8048000 0x208000 := by
      refine tableMemory_ready (by decide) (by decide) ?_
      have hentry : entry (tableMemory 32 0x2001).phys 0x1000 0x8048 = some 0x2120 := by
        unfold entry
        rw [show 0x8048 / 1024 = 32 from rfl, hpde]
        rfl
      rw [target_of_entry hentry, load32_tableMemory (by decide) (by decide)]
      rfl
    obtain ⟨t, hadd, hnot⟩ := hready.not_of_bits
      (by rw [show pde _ (tableMemory 32 0x2001).cr3 _ = _ from hpde]; decide)
      (by rw [show pde _ (tableMemory 32 0x2001).cr3 _ = _ from hpde]; decide)
    exact ⟨t, hready, hadd, hnot⟩

/-! ### The window of the page tables -/

/-- On a directory that maps itself, `pde_ptr` and `pte_ptr` give addresses at which the processor
finds the two entries of `v`, and `addr_v2p` translates `v` as the processor does. The addresses of
the window itself are no exception. -/
theorem recursive_mapping (s : MemState) (v : Nat) (hself : SelfMapped s.phys s.cr3)
    (hv : v < 2 ^ 32) :
    walk s.phys s.cr3 (Mem.pdePtr v) = some (s.cr3 + 4 * (v >>> 22)) ∧
    (Present (pde s.phys s.cr3 (v >>> 22)) → walk s.phys s.cr3 (Mem.ptePtr v) =
      some (frameOf (pde s.phys s.cr3 (v >>> 22)) + 4 * (v >>> 12 &&& 0x3ff))) ∧
    ∀ pa, walk s.phys s.cr3 v = some pa → Mem.addrV2p v s = .ok (pa, s) := by
  have hdir : v >>> 22 = v / 4096 / 1024 := by
    rw [Nat.shiftRight_eq_div_pow]
    omega
  have htable : v >>> 12 &&& 0x3ff = v / 4096 % 1024 := by
    rw [Nat.shiftRight_eq_div_pow]
    exact Nat.and_two_pow_sub_one_eq_mod _ 10
  rw [hdir, htable]
  refine ⟨Mem.walk_pdePtr hself hv, fun hp => ?_, fun pa hpa => ?_⟩
  · exact Mem.walk_ptePtr hself hv (entry_of_present hp)
  · obtain ⟨f, hf, rfl⟩ := walk_eq_some.mp hpa
    exact Mem.addrV2p_ok hself hv hf

/-- An address in the last page, where the directory shows itself. -/
theorem recursive_mapping_dir :
    walk (tableMemory 0 0).phys 0x1000 (Mem.pdePtr 0xfffff123) = some (0x1000 + 4 * 1023) ∧
    walk (tableMemory 0 0).phys 0x1000 (Mem.ptePtr 0xfffff123) = some (0x1000 + 4 * 1023) ∧
    Mem.addrV2p 0xfffff123 (tableMemory 0 0) = .ok (0x1123, tableMemory 0 0) := by
  have hself : SelfMapped (tableMemory 0 0).phys (tableMemory 0 0).cr3 :=
    tableMemory_selfMapped (by decide)
  obtain ⟨hpde, hpte, hv2p⟩ := recursive_mapping (tableMemory 0 0) 0xfffff123 hself (by decide)
  refine ⟨hpde, ?_, hv2p _ ?_⟩
  · have hentry := hpte hself.present
    rw [show 0xfffff123 >>> 22 = 1023 from rfl, hself.frame] at hentry
    exact hentry
  · have htarget := hself.target_window (i := 1023) (by decide) hself.present
    rw [hself.frame] at htarget
    exact @walk_of_target _ _ _ _ 0x123 htarget (by decide)

end OriginOS
