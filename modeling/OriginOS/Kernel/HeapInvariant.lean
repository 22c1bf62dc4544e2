import OriginOS.Kernel.ArenaSteps
import OriginOS.Kernel.FlatView

/-! The invariant of a heap: which pages its arenas lie in, how the bitmaps account for them, and
what the memory shows of the arenas; and what `malloc_page` and `mfree_page` do to it. -/

namespace OriginOS

open Lib

/-- The descriptors that `sys_malloc` uses with a pool. -/
def MemState.descs (s : MemState) : PoolFlags → Nat
  | .kernel => s.kBlockDescs
  | .user => (s.task s.runningThread).uBlockDescs

/-- The running thread allocates from the pool `pf`. -/
def MemState.Uses (s : MemState) (pf : PoolFlags) : Prop :=
  (s.task s.runningThread).pgdir = 0 ↔ pf = .kernel

def Arenas.Covers (A : Arenas) (vp : Nat) : Prop :=
  ∃ vp' k, A.kind vp' = some k ∧ vp' ≤ vp ∧ vp < vp' + k.pages

def KernelFrame (g : Frames) (vp f : Nat) : Prop :=
  (∃ k < 256, vp = 0xc0000 + k ∧ f = 4096 * k) ∨ g.own f = some (.page .kernel vp) ∧ ¬ g.IsDir f

structure DescsPlaced (g : Frames) (descs : Nat) : Prop where
  aligned : descs % 4 = 0
  bound : descs + 168 ≤ 2 ^ 32
  frames : ∀ a, descs ≤ a → a < descs + 168 → ∃ f, KernelFrame g (a / 4096) f

structure HeapPages (pf : PoolFlags) (g : Frames) (s : MemState) (A : Arenas) : Prop where
  uses : s.Uses pf
  descs : DescsPlaced g (s.descs pf)
  pages : ∀ vp, A.Covers vp → pf.firstPage ≤ vp ∧ ∃ i < 3840,
    g.own (frameAddr pf i) = some (.page (s.space pf) vp) ∧ ¬ g.IsDir (frameAddr pf i)

/-- Compared with the state `s₀`, in which the frames were used as `g₀` says, the pages of the
arenas are taken and no others. A user process also keeps the page tables it has got. -/
structure Booked (pf : PoolFlags) (g₀ : Frames) (s₀ : MemState) (g : Frames) (s : MemState)
    (A : Arenas) : Prop where
  bits : ∀ k, (s.vaddr pf).vaddrBitmap.bit k = true ↔
    (s₀.vaddr pf).vaddrBitmap.bit k = true ∨ A.Covers (pf.firstPage + k)
  clear : ∀ k, A.Covers (pf.firstPage + k) → (s₀.vaddr pf).vaddrBitmap.bit k = false
  bitmap : (s.vaddr pf).vaddrBitmap.btmpBytesLen = (s₀.vaddr pf).vaddrBitmap.btmpBytesLen ∧
    (s.vaddr pf).vaddrBitmap.addr = (s₀.vaddr pf).vaddrBitmap.addr
  owned : ∀ f r, g₀.own f = some r → g.own f = some r
  added : ∀ f r, g.own f = some r → g₀.own f = some r ∨
    (∃ vp, A.Covers vp ∧ r = .page (s.space pf) vp) ∨ s.space pf ≠ .kernel ∧ ∃ t i, r = .table t i
  fresh : ∀ vp, A.Covers vp → ∀ f, g₀.own f ≠ some (.page (s.space pf) vp)
  pools : PoolsAgree s₀.pool s.pool

/-- The running thread, the threads' page directories and the places of the descriptors are the
same. -/
structure SameOwner (s s' : MemState) : Prop where
  running : s'.runningThread = s.runningThread
  pgdir : ∀ t, (s'.task t).pgdir = (s.task t).pgdir
  kBlockDescs : s'.kBlockDescs = s.kBlockDescs
  uBlockDescs : ∀ t, (s'.task t).uBlockDescs = (s.task t).uBlockDescs

/-- Outside of the data pages, only what belongs to the owner has changed: the page tables of its
space, its pool and its range. -/
structure Confined (pf : PoolFlags) (g : Frames) (s t : MemState) : Prop where
  phys : ∀ b, OffData g s b → ¬ (s.space pf).TableByte g s b → t.phys b = s.phys b
  pool : ∀ q, q ≠ pf → ∀ i, (t.pool q).poolBitmap.bit i = (s.pool q).poolBitmap.bit i
  kernelVaddr : pf = .user → t.kernelVaddr = s.kernelVaddr
  tasks : ∀ u, u ≠ s.runningThread → t.task u = s.task u
  cr3 : t.cr3 = s.cr3
  ndebug : t.ndebug = s.ndebug

section Owner

variable {s s' s'' : MemState} {pf : PoolFlags}

namespace SameOwner

theorem trans (h : SameOwner s s') (h' : SameOwner s' s'') : SameOwner s s'' :=
  ⟨h'.running.trans h.running, fun t => (h'.pgdir t).trans (h.pgdir t),
    h'.kBlockDescs.trans h.kBlockDescs, fun t => (h'.uBlockDescs t).trans (h.uBlockDescs t)⟩

theorem setPhys (s : MemState) (mem : Nat → UInt8) : SameOwner s (s.setPhys mem) :=
  ⟨rfl, fun _ => rfl, rfl, fun _ => rfl⟩

theorem setPool (s : MemState) (pool : PoolFlags → Pool) : SameOwner s (s.setPool pool) :=
  ⟨rfl, fun _ => rfl, rfl, fun _ => rfl⟩

theorem setLock (s : MemState) (pf : PoolFlags) (l : Lock) : SameOwner s (s.setLock pf l) :=
  ⟨rfl, fun _ => rfl, rfl, fun _ => rfl⟩

theorem setVaddrBitmap (s : MemState) (pf : PoolFlags) (b : Bitmap) :
    SameOwner s (s.setVaddrBitmap pf b) := by
  refine ⟨by cases pf <;> rfl, fun t => pgdir_setVaddrBitmap s pf b t, by cases pf <;> rfl,
    fun t => ?_⟩
  cases pf with
  | kernel => rfl
  | user =>
    unfold MemState.setVaddrBitmap
    by_cases ht : t = s.runningThread
    · subst ht
      simp
    · simp [ht]

theorem descs (h : SameOwner s s') (pf : PoolFlags) : s'.descs pf = s.descs pf := by
  cases pf with
  | kernel => exact h.kBlockDescs
  | user =>
    unfold MemState.descs
    rw [h.running]
    exact h.uBlockDescs _

theorem space (h : SameOwner s s') (pf : PoolFlags) : s'.space pf = s.space pf := by
  cases pf with
  | kernel => rfl
  | user => exact congrArg Space.user h.running

theorem uses (h : SameOwner s s') : s'.Uses pf ↔ s.Uses pf := by
  unfold MemState.Uses
  rw [h.running, h.pgdir]

end SameOwner

theorem FrameInv.offData_dir {g : Frames} (h : FrameInv g s) {d b : Nat} (hd : g.IsDir d)
    (hlow : d ≤ b)
    (hhigh : b < d + 4096) : OffData g s b := by
  intro vp f hf
  have hplain := hf.plain h
  have hmod := hplain.aligned
  have hmod' := (h.dir_bounds hd).1
  have hne : f ≠ d := fun heq => hplain.notDir (heq ▸ hd)
  omega

theorem Confined.tableByte {g : Frames} (h : Confined pf g s s') (hinv : FrameInv g s)
    (hsame : SameOwner s s') {b : Nat} (hb : (s'.space pf).TableByte g s' b) :
    (s.space pf).TableByte g s b := by
  obtain ⟨vp, e, hsp, he, hlow, hhigh⟩ := hb
  rw [hsame.space] at hsp he
  have hsp' : (s.space pf).Has s vp := by
    revert hsp
    cases s.space pf with
    | kernel => exact id
    | user t =>
      rintro ⟨hpgdir, hlt⟩
      exact ⟨by rwa [← hsame.pgdir], hlt⟩
  have hlt := FrameInv.has_div_lt hsp'
  refine ⟨vp, e, hsp', ?_, hlow, hhigh⟩
  rw [← he]
  refine (entry_congr (load32_congr fun c hc hc' => ?_)).symm
  have hdir := FrameInv.space_isDir g (s.space pf)
  exact h.phys c (hinv.offData_dir hdir (by omega) (by omega))
    (hinv.not_tableByte hdir (by omega) (by omega))

theorem Confined.trans {g : Frames} (h : Confined pf g s s') (hinv : FrameInv g s)
    (hsame : SameOwner s s') (h' : Confined pf g s' s'') : Confined pf g s s'' := by
  refine ⟨fun b hoff htable => ?_, fun q hq i => (h'.pool q hq i).trans (h.pool q hq i),
    fun hpf => (h'.kernelVaddr hpf).trans (h.kernelVaddr hpf), fun u hu => ?_, h'.cr3.trans h.cr3,
    h'.ndebug.trans h.ndebug⟩
  · refine (h'.phys b (fun vp f hf => hoff vp f ?_) fun hb =>
      htable (h.tableByte hinv hsame hb)).trans
      (h.phys b hoff htable)
    exact (PageFrame.congr hsame.running).mp hf
  · exact (h'.tasks u (by rwa [hsame.running])).trans (h.tasks u hu)

theorem Confined.setPhys {g : Frames} {mem : Nat → UInt8}
    (hmem : ∀ b, OffData g s b → mem b = s.phys b) : Confined pf g s (s.setPhys mem) :=
  ⟨fun b hb _ => hmem b hb, fun _ _ _ => rfl, fun _ => rfl, fun _ _ => rfl, rfl, rfl⟩

theorem Confined.setLock {g : Frames} (s : MemState) (q : PoolFlags) (l : Lock) :
    Confined pf g s (s.setLock q l) :=
  ⟨fun _ _ _ => rfl, fun _ _ _ => rfl, fun _ => rfl, fun _ _ => rfl, rfl, rfl⟩

theorem MemState.Uses.mayUse (h : s.Uses pf) : s.MayUse pf := by
  rintro rfl hpgdir
  exact nomatch h.mp hpgdir

end Owner

section Pages

variable {pf : PoolFlags} {g g' g₀ : Frames} {s s' s₀ : MemState} {A : Arenas} {vp n : Nat}
  {m : Nat → UInt8} {k : ArenaKind}

theorem KernelFrame.pageFrame {f : Nat} (h : KernelFrame g vp f) (s : MemState) :
    PageFrame g s vp f := by
  rcases h with hlow | ⟨hown, hdir⟩
  · exact .inl hlow
  · exact .inr ⟨.kernel, trivial, hown, hdir⟩

theorem DescsPlaced.dataWord {descs a : Nat} (h : DescsPlaced g descs) (s : MemState)
    (hlow : descs ≤ a) (hhigh : a < descs + 168) (hmod : a % 4 = 0) : DataWord g s a := by
  obtain ⟨f, hf⟩ := h.frames a hlow hhigh
  exact ⟨⟨f, hf.pageFrame s⟩, by omega⟩

theorem DescsPlaced.dataNode {descs a : Nat} (h : DescsPlaced g descs) (s : MemState)
    (hlow : descs ≤ a) (hhigh : a + 8 ≤ descs + 168) (hmod : a % 4 = 0) : DataNode g s a := by
  have hbound := h.bound
  exact ⟨h.dataWord s hlow (by omega) hmod, h.dataWord s (by omega) (by omega) (by omega), by omega⟩

namespace Arenas

theorem covers_add {p : Nat} (hnone : A.kind vp = none) :
    (A.setKind vp (some k)).Covers p ↔ A.Covers p ∨ vp ≤ p ∧ p < vp + k.pages := by
  constructor
  · rintro ⟨vp', k', hkind, hp⟩
    by_cases hvp : vp' = vp
    · subst hvp
      rw [kind_setKind_self] at hkind
      obtain rfl := Option.some.inj hkind
      exact .inr hp
    · rw [kind_setKind_of_ne hvp] at hkind
      exact .inl ⟨vp', k', hkind, hp⟩
  · rintro (⟨vp', k', hkind, hp⟩ | hp)
    · refine ⟨vp', k', ?_, hp⟩
      rw [kind_setKind_of_ne (by rintro rfl; rw [hnone] at hkind; exact nomatch hkind)]
      exact hkind
    · exact ⟨vp, k, kind_setKind_self _, hp⟩

theorem covers_remove {descs p : Nat} (h : A.Layout descs) (hkind : A.kind vp = some k) :
    (A.setKind vp none).Covers p ↔ A.Covers p ∧ ¬ (vp ≤ p ∧ p < vp + k.pages) := by
  constructor
  · rintro ⟨vp', k', hkind', hp⟩
    obtain ⟨hne, hold⟩ := kind_of_remove hkind'
    have hap := h.apart vp' vp k' k hold hkind hne
    exact ⟨⟨vp', k', hold, hp⟩, by omega⟩
  · rintro ⟨⟨vp', k', hkind', hp⟩, hout⟩
    refine ⟨vp', k', ?_, hp⟩
    rw [kind_setKind_of_ne]
    · exact hkind'
    · rintro rfl
      obtain rfl := Option.some.inj (hkind.symm.trans hkind')
      exact hout hp

end Arenas

theorem HeapPages.dataPage (h : HeapPages pf g s A) (hvp : A.Covers vp) : DataPage g s vp := by
  obtain ⟨-, i, -, hown, hdir⟩ := h.pages vp hvp
  exact ⟨_, .inr ⟨s.space pf, space_current s pf, hown, hdir⟩⟩

theorem HeapPages.dataWord (h : HeapPages pf g s A) {a : Nat} (ha : A.Covers (a / 4096))
    (hmod : a % 4 = 0) : DataWord g s a := ⟨h.dataPage ha, by omega⟩

theorem HeapPages.congr (h : HeapPages pf g s A) (hsame : SameOwner s s') :
    HeapPages pf g s' A := by
  refine ⟨hsame.uses.mpr h.uses, ?_, fun vp hvp => ?_⟩
  · rw [hsame.descs]
    exact h.descs
  · rw [hsame.space]
    exact h.pages vp hvp

theorem Booked.congr (h : Booked pf g₀ s₀ g s A) (hsame : SameOwner s s')
    (hvaddr : s'.vaddr pf = s.vaddr pf) (hpool : s'.pool = s.pool) : Booked pf g₀ s₀ g s' A := by
  refine ⟨?_, h.clear, ?_, h.owned, ?_, ?_, ?_⟩
  · rw [hvaddr]
    exact h.bits
  · rw [hvaddr]
    exact h.bitmap
  · rw [hsame.space]
    exact h.added
  · rw [hsame.space]
    exact h.fresh
  · rw [hpool]
    exact h.pools

theorem HeapPages.freshRun (h : HeapPages pf g s A) (hinv : FrameInv g s)
    (hA : A.Layout (s.descs pf)) (hn : 0 < n) (hsp : ∀ j < n, (s.space pf).Has s (vp + j))
    (hnone : ∀ j < n, target s.phys ((s.space pf).dir g) (vp + j) = none) :
    A.FreshRun (s.descs pf) vp n := by
  have hdata : ∀ p f, PageFrame g s p f → ∀ j < n, p ≠ vp + j := fun p f hf j hj =>
    hf.ne_of_target_none hinv (space_current s pf) (hsp j hj) (hnone j hj)
  refine ⟨fun vp' k' hkind => ?_, ?_, ?_⟩
  · by_contra hover
    have hpos := ArenaKind.pages_pos (hA.made vp' k' hkind)
    -- a page of both
    have hcov : A.Covers (max vp vp') := ⟨vp', k', hkind, by omega, by omega⟩
    obtain ⟨f, hf⟩ := h.dataPage hcov
    exact hdata _ f hf (max vp vp' - vp) (by omega) (by omega)
  · have hlast := hsp (n - 1) (by omega)
    have hlt : vp + (n - 1) < 1023 * 1024 := by
      cases hspace : s.space pf with
      | kernel =>
        rw [hspace] at hlast
        exact hlast.2
      | user t =>
        rw [hspace] at hlast
        have hlt := hlast.2
        omega
    omega
  · by_contra hover
    have halign := h.descs.aligned
    -- an address of both
    obtain ⟨f, hf⟩ := h.descs.frames (max (s.descs pf) (4096 * vp)) (by omega) (by omega)
    exact hdata _ f (hf.pageFrame s) (max (s.descs pf) (4096 * vp) / 4096 - vp)
      (by omega) (by omega)

end Pages

section Grow

variable {pf : PoolFlags} {g g' g₀ : Frames} {s t s₀ : MemState} {A : Arenas} {vp n : Nat}
  {m : Nat → UInt8} {k : ArenaKind} {E : Stop → Prop}

theorem Grew.sameOwner {b : Bitmap} (h : Grew pf (s.space pf) vp n g g' (s.setVaddrBitmap pf b) t) :
    SameOwner s t := by
  obtain ⟨pool, mem, rfl⟩ := h.state
  exact (SameOwner.setVaddrBitmap s pf b).trans
    ((SameOwner.setPool _ pool).trans (SameOwner.setPhys _ mem))

theorem Grew.lock {b : Bitmap} (h : Grew pf (s.space pf) vp n g g' (s.setVaddrBitmap pf b) t) :
    t.lock = s.lock := by
  obtain ⟨pool, mem, rfl⟩ := h.state
  cases pf <;> rfl

theorem Grew.vaddrBitmap {b : Bitmap}
    (h : Grew pf (s.space pf) vp n g g' (s.setVaddrBitmap pf b) t) :
    (t.vaddr pf).vaddrBitmap = b := by
  obtain ⟨pool, mem, rfl⟩ := h.state
  exact vaddr_setVaddrBitmap s pf b

theorem KernelFrame.grew {sp : Space} {p f vp : Nat} (hf : KernelFrame g p f)
    (h : Grew pf sp vp n g g' s t) : KernelFrame g' p f := by
  rcases hf with hlow | ⟨hown, hdir⟩
  · exact .inl hlow
  · exact .inr ⟨h.own _ _ hown, mt h.isDir.mp hdir⟩

theorem HeapPages.grew {b : Bitmap} (h : HeapPages pf g s A) (hnone : A.kind vp = none)
    (hfirst : pf.firstPage ≤ vp) (hsp : ∀ j < k.pages, (s.space pf).Has s (vp + j))
    (hinv : FrameInv g (s.setVaddrBitmap pf b))
    (hgrew : Grew pf (s.space pf) vp k.pages g g' (s.setVaddrBitmap pf b) t) :
    HeapPages pf g' t (A.setKind vp (some k)) := by
  have hsame := hgrew.sameOwner
  refine ⟨hsame.uses.mpr h.uses, ⟨?_, ?_, fun a ha ha' => ?_⟩, fun p hp => ?_⟩
  · rw [hsame.descs]
    exact h.descs.aligned
  · rw [hsame.descs]
    exact h.descs.bound
  · rw [hsame.descs] at ha ha'
    obtain ⟨f, hf⟩ := h.descs.frames a ha ha'
    exact ⟨f, hf.grew hgrew⟩
  · rw [hsame.space]
    rcases (Arenas.covers_add hnone).mp hp with hold | ⟨hlow, hhigh⟩
    · obtain ⟨hpage, i, hi, hown, hdir⟩ := h.pages p hold
      exact ⟨hpage, i, hi, hgrew.own _ _ hown, mt hgrew.isDir.mp hdir⟩
    · have hspt : ∀ j < k.pages, (s.space pf).Has (s.setVaddrBitmap pf b) (vp + j) :=
        fun j hj => has_setVaddrBitmap.mpr (hsp j hj)
      obtain ⟨hhas, i, hi, htarget, hdir⟩ := hgrew.allocated hinv hspt (p - vp) (by omega)
      rw [show vp + (p - vp) = p by omega] at htarget hhas
      refine ⟨by omega, i, hi, ?_, hdir⟩
      refine (hgrew.inv.page _ _ _ hhas htarget).resolve_left ?_
      have hbounds := frameAddr_bounds pf hi
      omega

theorem Booked.grew {i : Nat} (h : Booked pf g₀ s₀ g s A) (hnone : A.kind (pf.firstPage + i) = none)
    (hclear : (s.vaddr pf).vaddrBitmap.ClearRun k.pages i)
    (hinv : FrameInv g (s.setVaddrBitmap pf ((s.vaddr pf).vaddrBitmap.putRun true k.pages i)))
    (hgrew : Grew pf (s.space pf) (pf.firstPage + i) k.pages g g'
      (s.setVaddrBitmap pf ((s.vaddr pf).vaddrBitmap.putRun true k.pages i)) t) :
    Booked pf g₀ s₀ g' t (A.setKind (pf.firstPage + i) (some k)) := by
  have hsame := hgrew.sameOwner
  have hcov := fun p => Arenas.covers_add (k := k) (p := p) hnone
  refine ⟨fun j => ?_, fun j hj => ?_, ?_, fun f r hf => hgrew.own f r (h.owned f r hf),
    fun f r hf => ?_, fun p hp f hf => ?_, ?_⟩
  · have hbits := h.bits j
    rw [hgrew.vaddrBitmap, Bitmap.bit_putRun, hcov]
    split
    next hin => exact iff_of_true rfl (.inr (.inr (by omega)))
    next hout =>
      have hnot : ¬ (pf.firstPage + i ≤ pf.firstPage + j ∧
        pf.firstPage + j < pf.firstPage + i + k.pages) := by omega
      rw [hbits, or_iff_left hnot]
  · rcases (hcov _).mp hj with hold | ⟨hlow, hhigh⟩
    · exact h.clear j hold
    · have hbit := hclear.clear j (by omega) (by omega)
      by_contra hset
      have hbits := (h.bits j).mpr (.inl (by simpa using hset))
      rw [hbit] at hbits
      exact nomatch hbits
  · rw [hgrew.vaddrBitmap, Bitmap.putRun_len, Bitmap.putRun_addr]
    exact h.bitmap
  · rw [hsame.space]
    cases hold : g.own f with
    | none =>
      rcases hgrew.fresh f r hf hold with ⟨j, hj, rfl⟩ | htable
      · exact .inr (.inl ⟨_, (hcov _).mpr (.inr ⟨by omega, by omega⟩), rfl⟩)
      · exact .inr (.inr htable)
    | some r' =>
      have hr := hgrew.own f r' hold
      rw [hf] at hr
      obtain rfl := Option.some.inj hr
      rcases h.added f r hold with hr | ⟨p, hp, hr⟩ | htable
      · exact .inl hr
      · exact .inr (.inl ⟨p, (hcov p).mpr (.inl hp), hr⟩)
      · exact .inr (.inr htable)
  · rw [hsame.space] at hf
    rcases (hcov p).mp hp with hold | ⟨hlow, hhigh⟩
    · exact h.fresh p hold f hf
    · have hmapped := (hinv.mapped f _ p (h.owned f _ hf)).2
      have hwas := hgrew.was (p - (pf.firstPage + i)) (by omega)
      rw [show pf.firstPage + i + (p - (pf.firstPage + i)) = p by omega, hmapped] at hwas
      exact nomatch hwas
  · refine h.pools.trans ?_
    have hpool : (s.setVaddrBitmap pf ((s.vaddr pf).vaddrBitmap.putRun true k.pages i)).pool =
      s.pool := by
      cases pf <;> rfl
    exact hpool ▸ hgrew.pools

/-- What `malloc_page` gives to a heap: a run of pages apart from its arenas, whose bytes may be
anything. -/
structure NewPages (pf : PoolFlags) (g₀ : Frames) (s₀ : MemState) (s t : MemState) (A : Arenas)
    (m : Nat → UInt8) (vp n : Nat) (g' : Frames) (m₁ : Nat → UInt8) : Prop where
  pos : 0 < vp
  count : 0 < n ∧ n < 3840
  run : A.FreshRun (s.descs pf) vp n
  same : SameOwner s t
  lock : t.lock = s.lock
  flat : Flat g' t m₁
  bytes : ∀ a, a < 4096 * vp ∨ 4096 * (vp + n) ≤ a → m₁ a = m a
  pages : ∀ k : ArenaKind, k.pages = n → HeapPages pf g' t (A.setKind vp (some k)) ∧
    Booked pf g₀ s₀ g' t (A.setKind vp (some k))

theorem HeapPages.ensures_mallocPage (h : HeapPages pf g s A) (hbook : Booked pf g₀ s₀ g s A)
    (hA : A.Layout (s.descs pf)) (hflat : Flat g s m) (hE : Tolerates E) (n : Nat) :
    Ensures (Mem.mallocPage pf n) E (fun v t => (v = 0 ∧ t = s) ∨
      ∃ vp g' m₁, v = 4096 * vp ∧ NewPages pf g₀ s₀ s t A m vp n g' m₁) s := by
  refine (hflat.inv.ensures_mallocPage hE h.uses.mayUse n).mono fun v t hv => ?_
  rcases hv with hnull | ⟨i, g', hpos, hlt, hclear, hv, hsp, hgrew⟩
  · exact .inl hnull
  · have hinv := hflat.inv.setRun pf n i
    have hphys : (s.setVaddrBitmap pf ((s.vaddr pf).vaddrBitmap.putRun true n i)).phys =
      s.phys := by
      cases pf <;> rfl
    have hrun : (s.setVaddrBitmap pf ((s.vaddr pf).vaddrBitmap.putRun true n i)).runningThread =
        s.runningThread := by cases pf <;> rfl
    have hfresh := h.freshRun hflat.inv hA hpos hsp fun j hj => hphys ▸ hgrew.was j hj
    obtain ⟨m₁, hflat₁, hbytes⟩ := (hflat.congr hinv hphys hrun).grew hgrew
      ((Space.current_congr hrun).mpr (space_current s pf)) fun j hj =>
      has_setVaddrBitmap.mpr (hsp j hj)
    have hnone := hfresh.kind_none hA hpos
    refine .inr ⟨_, g', m₁, hv, ⟨?_, ⟨hpos, hlt⟩, hfresh, hgrew.sameOwner, hgrew.lock, hflat₁,
      hbytes, ?_⟩⟩
    · cases pf <;> simp only [PoolFlags.firstPage] <;> omega
    · rintro k rfl
      exact ⟨h.grew hnone (by omega) hsp hinv hgrew, hbook.grew hnone hclear hinv hgrew⟩

end Grow

section Shrink

variable {pf : PoolFlags} {g g' g₀ : Frames} {s s' s₀ : MemState} {A : Arenas} {vp : Nat}
  {m : Nat → UInt8} {k : ArenaKind}

theorem HeapPages.allocated (h : HeapPages pf g s A) (hinv : FrameInv g s)
    (hkind : A.kind vp = some k) : Allocated pf (s.space pf) vp k.pages g s := by
  intro j hj
  obtain ⟨-, i, hi, hown, hdir⟩ := h.pages (vp + j) ⟨vp, k, hkind, by omega, by omega⟩
  obtain ⟨hsp, htarget⟩ := hinv.mapped _ _ _ hown
  exact ⟨hsp, i, hi, htarget, hdir⟩

theorem Shrank.sameOwner {sp : Space} {n : Nat} (h : Shrank sp vp n g g' s s') (pf : PoolFlags)
    (b : Bitmap) : SameOwner s (s'.setVaddrBitmap pf b) := by
  obtain ⟨pool, mem, rfl⟩ := h.state
  exact ((SameOwner.setPool s pool).trans (SameOwner.setPhys _ mem)).trans
    (SameOwner.setVaddrBitmap _ pf _)

theorem HeapPages.shrank (h : HeapPages pf g s A) (hA : A.Layout (s.descs pf))
    (hkind : A.kind vp = some k) (hshrank : Shrank (s.space pf) vp k.pages g g' s s') (b : Bitmap) :
    HeapPages pf g' (s'.setVaddrBitmap pf b) (A.setKind vp none) := by
  have hsame := hshrank.sameOwner pf b
  refine ⟨hsame.uses.mpr h.uses, ⟨?_, ?_, fun a ha ha' => ?_⟩, fun p hp => ?_⟩
  · rw [hsame.descs]
    exact h.descs.aligned
  · rw [hsame.descs]
    exact h.descs.bound
  · rw [hsame.descs] at ha ha'
    obtain ⟨f, hf⟩ := h.descs.frames a ha ha'
    refine ⟨f, ?_⟩
    rcases hf with hlow | ⟨hown, hdir⟩
    · exact .inl hlow
    · refine .inr ⟨?_, mt hshrank.isDir.mp hdir⟩
      rw [hshrank.own f, hown]
      intro j hj heq
      rw [hown] at heq
      injection Option.some.inj heq with hsp hpage
      have hplace := (hA.place vp k hkind).2
      omega
  · rw [hsame.space]
    obtain ⟨hcov, hout⟩ := (Arenas.covers_remove hA hkind).mp hp
    obtain ⟨hfirst, i, hi, hown, hdir⟩ := h.pages p hcov
    refine ⟨hfirst, i, hi, ?_, mt hshrank.isDir.mp hdir⟩
    rw [hshrank.own _, hown]
    intro j hj heq
    rw [hown] at heq
    injection Option.some.inj heq with hsp hpage
    omega

theorem Booked.shrank {i : Nat} (h : Booked pf g₀ s₀ g s A) (hA : A.Layout (s.descs pf))
    (hkind : A.kind (pf.firstPage + i) = some k)
    (hshrank : Shrank (s.space pf) (pf.firstPage + i) k.pages g g' s s') :
    Booked pf g₀ s₀ g' (s'.setVaddrBitmap pf ((s.vaddr pf).vaddrBitmap.putRun false k.pages i))
      (A.setKind (pf.firstPage + i) none) := by
  have hsame := hshrank.sameOwner pf ((s.vaddr pf).vaddrBitmap.putRun false k.pages i)
  have hcov := fun p => Arenas.covers_remove (p := p) hA hkind
  have hin : ∀ p, pf.firstPage + i ≤ p ∧ p < pf.firstPage + i + k.pages → A.Covers p :=
    fun p hp => ⟨_, k, hkind, hp⟩
  refine ⟨fun j => ?_, fun j hj => h.clear j ((hcov _).mp hj).1, ?_,
    fun f r hf => ?_, fun f r hf => ?_,
    fun p hp f => ?_, ?_⟩
  · have hbits := h.bits j
    rw [vaddr_setVaddrBitmap, Bitmap.bit_putRun, hcov]
    split
    next hj =>
      have hcovered := hin (pf.firstPage + j) (by omega)
      rw [h.clear j hcovered]
      refine iff_of_false (fun heq => nomatch heq) ?_
      rintro (heq | ⟨-, hout⟩)
      · exact nomatch heq
      · exact hout (by omega)
    next hj =>
      have hout : ¬ (pf.firstPage + i ≤ pf.firstPage + j ∧
        pf.firstPage + j < pf.firstPage + i + k.pages) := by omega
      rw [hbits, and_iff_left hout]
  · rw [vaddr_setVaddrBitmap, Bitmap.putRun_len, Bitmap.putRun_addr]
    exact h.bitmap
  · have hold := h.owned f r hf
    rw [hshrank.own f, hold]
    intro j hj heq
    have hrole := Option.some.inj (hold.symm.trans heq)
    exact h.fresh _ (hin _ ⟨by omega, by omega⟩) f (hrole ▸ hf)
  · rw [hsame.space]
    obtain ⟨hold, hkeep⟩ := hshrank.own_of hf
    rcases h.added f r hold with hr | ⟨p, hp, rfl⟩ | htable
    · exact .inl hr
    · refine .inr (.inl ⟨p, (hcov p).mpr ⟨hp, fun hout => ?_⟩, rfl⟩)
      refine hkeep (p - (pf.firstPage + i)) (by omega) ?_
      rw [show pf.firstPage + i + (p - (pf.firstPage + i)) = p by omega]
      exact hold
    · exact .inr (.inr htable)
  · rw [hsame.space]
    exact h.fresh p ((hcov p).mp hp).1 f
  · refine h.pools.trans ?_
    have hpool : (s'.setVaddrBitmap pf ((s.vaddr pf).vaddrBitmap.putRun false k.pages i)).pool =
        s'.pool := by cases pf <;> rfl
    exact hpool ▸ hshrank.pools

theorem frameAddr_ne {q : PoolFlags} (hq : q ≠ pf) {i j : Nat} (hi : i < 3840) (hj : j < 3840) :
    frameAddr q i ≠ frameAddr pf j := by
  unfold frameAddr pgSize
  cases q <;> cases pf <;> simp only [PoolFlags.start] <;>
    first | exact absurd rfl hq | omega

theorem HeapPages.shrank_pool (h : HeapPages pf g s A) (hinv : FrameInv g s)
    (hkind : A.kind vp = some k) (hshrank : Shrank (s.space pf) vp k.pages g g' s s')
    {q : PoolFlags}
    (hq : q ≠ pf) (i : Nat) : (s'.pool q).poolBitmap.bit i = (s.pool q).poolBitmap.bit i := by
  by_cases hi : i < 3840
  · rw [Bool.eq_iff_iff, hshrank.inv.bit q i hi, hinv.bit q i hi, hshrank.own]
    intro j hj hown
    obtain ⟨-, i', hi', hown', -⟩ := h.pages (vp + j) ⟨vp, k, hkind, by omega, by omega⟩
    exact frameAddr_ne hq hi hi' (hinv.frame_unique hown hown')
  · exact hshrank.pools.bit q i (by omega)

/-- `mfree_page` takes an arena away and changes nothing that the other data pages show. -/
theorem HeapPages.mfreePage_ok (h : HeapPages pf g s A) (hbook : Booked pf g₀ s₀ g s A)
    (hA : A.Layout (s.descs pf)) (hflat : Flat g s m) (hkind : A.kind vp = some k) :
    ∃ g' t, Mem.mfreePage pf (4096 * vp) k.pages s = .ok ((), t) ∧ SameOwner s t ∧
      t.lock = s.lock ∧ Flat g' t m ∧ HeapPages pf g' t (A.setKind vp none) ∧
      Booked pf g₀ s₀ g' t (A.setKind vp none) ∧ Confined pf g s t ∧
      ∀ vp f, PageFrame g s vp f → ¬ A.Covers vp → PageFrame g' t vp f := by
  have hpos := ArenaKind.pages_pos (hA.made vp k hkind)
  obtain ⟨hfirst, -⟩ := h.pages vp ⟨vp, k, hkind, Nat.le_refl vp, by omega⟩
  obtain ⟨i, rfl⟩ := Nat.exists_eq_add_of_le hfirst
  obtain ⟨g', s', hshrank, hok, hinv⟩ :=
    hflat.inv.mfreePage_ok h.uses.mayUse hpos (h.allocated hflat.inv hkind)
  refine ⟨g', _, hok, hshrank.sameOwner pf _, ?_, ?_, h.shrank hA hkind hshrank _,
    hbook.shrank hA hkind hshrank, ?_, fun vp' f hf hcovers => ?_⟩
  · obtain ⟨pool, mem, rfl⟩ := hshrank.state
    cases pf <;> rfl
  · refine (hflat.shrank hshrank).congr hinv ?_ ?_ <;> cases pf <;> rfl
  · have hpool := fun q hq => h.shrank_pool (q := q) hflat.inv hkind hshrank hq
    have htables := hshrank.tables
    obtain ⟨pool, mem, rfl⟩ := hshrank.state
    cases pf with
    | kernel =>
      exact ⟨fun b _ hb => htables b hb, hpool, nofun, fun _ _ => rfl, rfl, rfl⟩
    | user =>
      exact ⟨fun b _ hb => htables b hb, hpool, fun _ => rfl,
        fun u hu => Function.update_of_ne hu .., rfl, rfl⟩
  · refine (PageFrame.congr ?_).mpr (hshrank.pageFrame hf fun j hj hown => hcovers ?_)
    · cases pf <;> rfl
    · have hpage : PageFrame g s (pf.firstPage + i + j) f :=
        .inr ⟨s.space pf, space_current s pf, hown, (hf.plain hflat.inv).notDir⟩
      rw [hf.page_unique hpage hflat.inv]
      exact ⟨_, k, hkind, by omega, by omega⟩

end Shrink

end OriginOS
