import OriginOS.Lib.Bytes

/-! Two-level page tables of 32-bit x86 in a byte memory: the walk that translates a virtual
address, and what it finds when the last entry of the page directory points to the directory itself.

Pages are numbered: page number `vp` holds the virtual addresses from `4096 * vp` on. -/

namespace OriginOS.Lib

def Present (w : Nat) : Prop := w % 2 = 1

instance (w : Nat) : Decidable (Present w) := inferInstanceAs (Decidable (_ = _))

/-- The address of the frame that an entry points to. -/
def frameOf (w : Nat) : Nat := w / 4096 * 4096

/-- Entry number `i` of the page directory at `dir`. -/
def pde (mem : Nat → UInt8) (dir i : Nat) : Nat := load32 mem (dir + 4 * i)

/-- The address of the page table entry of page `vp`, if there is a page table for it. -/
def entry (mem : Nat → UInt8) (dir vp : Nat) : Option Nat :=
  let w := pde mem dir (vp / 1024)
  if Present w then some (frameOf w + 4 * (vp % 1024)) else none

/-- The address of the frame that page `vp` is mapped to, if it is mapped. -/
def target (mem : Nat → UInt8) (dir vp : Nat) : Option Nat :=
  match entry mem dir vp with
  | some e => if Present (load32 mem e) then some (frameOf (load32 mem e)) else none
  | none => none

/-- The physical address that a virtual address is translated to. -/
def walk (mem : Nat → UInt8) (dir va : Nat) : Option Nat :=
  (target mem dir (va / 4096)).map (· + va % 4096)

/-- What the walk of a page finds: the frame, and the low bits of the directory entry and of the
page table entry. -/
structure Mapping where
  frame : Nat
  dirBits : Nat
  tableBits : Nat
deriving DecidableEq, Repr

/-- The user, writable and present bits in effect: both entries must have a bit. -/
def Mapping.allowed (m : Mapping) : Nat := m.dirBits &&& m.tableBits &&& 0b111

def lookup (mem : Nat → UInt8) (dir vp : Nat) : Option Mapping :=
  match entry mem dir vp with
  | some e =>
    if Present (load32 mem e) then
      some ⟨frameOf (load32 mem e), pde mem dir (vp / 1024) % 4096, load32 mem e % 4096⟩
    else none
  | none => none

/-- The walk of page `vp` reads the word at `a`, as directory entry or as page table entry. -/
def Reads (mem : Nat → UInt8) (dir vp a : Nat) : Prop :=
  a = dir + 4 * (vp / 1024) ∨ entry mem dir vp = some a

/-- The last entry of the page directory points to the directory. -/
structure SelfMapped (mem : Nat → UInt8) (dir : Nat) : Prop where
  present : Present (pde mem dir 1023)
  frame : frameOf (pde mem dir 1023) = dir

variable {mem mem' : Nat → UInt8} {dir vp va : Nat}

theorem frameOf_mod (w : Nat) : frameOf w % 4096 = 0 := Nat.mul_mod_left ..

theorem frameOf_of_aligned {p n : Nat} (hp : p % 4096 = 0) (hn : n < 4096) :
    frameOf (p + n) = p := by
  unfold frameOf
  omega

theorem entry_of_present (h : Present (pde mem dir (vp / 1024))) :
    entry mem dir vp = some (frameOf (pde mem dir (vp / 1024)) + 4 * (vp % 1024)) := if_pos h

theorem entry_eq_some {e : Nat} : entry mem dir vp = some e ↔
    Present (pde mem dir (vp / 1024)) ∧
      e = frameOf (pde mem dir (vp / 1024)) + 4 * (vp % 1024) := by
  unfold entry
  dsimp only
  split
  · next h => simp [h, eq_comm]
  · next h => simp [h]

theorem target_eq_some {f : Nat} : target mem dir vp = some f ↔
    ∃ e, entry mem dir vp = some e ∧ Present (load32 mem e) ∧ f = frameOf (load32 mem e) := by
  unfold target
  cases he : entry mem dir vp with
  | none => simp
  | some e =>
    by_cases hp : Present (load32 mem e)
    · simp [hp, eq_comm]
    · simp [hp]

theorem target_of_entry {e : Nat} (h : entry mem dir vp = some e) :
    target mem dir vp = if Present (load32 mem e) then some (frameOf (load32 mem e)) else none := by
  unfold target
  rw [h]

theorem target_mod {f : Nat} (h : target mem dir vp = some f) : f % 4096 = 0 := by
  obtain ⟨e, -, -, rfl⟩ := target_eq_some.mp h
  exact frameOf_mod _

theorem walk_eq_some {pa : Nat} : walk mem dir va = some pa ↔
    ∃ f, target mem dir (va / 4096) = some f ∧ pa = f + va % 4096 := by
  unfold walk
  simp [eq_comm]

theorem walk_of_target {f off : Nat} (h : target mem dir vp = some f) (hoff : off < 4096) :
    walk mem dir (4096 * vp + off) = some (f + off) := by
  refine walk_eq_some.mpr ⟨f, ?_, ?_⟩
  · rwa [show (4096 * vp + off) / 4096 = vp by omega]
  · rw [show (4096 * vp + off) % 4096 = off by omega]

theorem entry_congr (hdir : pde mem' dir (vp / 1024) = pde mem dir (vp / 1024)) :
    entry mem' dir vp = entry mem dir vp := by
  unfold entry
  rw [hdir]

theorem target_eq_of_entry {dir' vp' : Nat} (h : entry mem dir vp = entry mem dir' vp') :
    target mem dir vp = target mem dir' vp' := by
  unfold target
  rw [h]

theorem target_congr (hdir : pde mem' dir (vp / 1024) = pde mem dir (vp / 1024))
    (hentry : ∀ e, entry mem dir vp = some e → load32 mem' e = load32 mem e) :
    target mem' dir vp = target mem dir vp := by
  unfold target
  rw [entry_congr hdir]
  split
  · next e h => rw [hentry e h]
  · rfl

theorem lookup_of_entry {e : Nat} (h : entry mem dir vp = some e) (hp : Present (load32 mem e)) :
    lookup mem dir vp =
      some ⟨frameOf (load32 mem e), pde mem dir (vp / 1024) % 4096, load32 mem e % 4096⟩ := by
  unfold lookup
  rw [h]
  exact if_pos hp

theorem lookup_eq_none : lookup mem dir vp = none ↔ target mem dir vp = none := by
  unfold lookup target
  cases entry mem dir vp with
  | none => simp
  | some e => by_cases hp : Present (load32 mem e) <;> simp [hp]

theorem Reads.aligned {a : Nat} (h : Reads mem dir vp a) (hdir : dir % 4096 = 0) : a % 4 = 0 := by
  rcases h with rfl | he
  · omega
  · obtain ⟨-, rfl⟩ := entry_eq_some.mp he
    have := frameOf_mod (pde mem dir (vp / 1024))
    omega

theorem lookup_congr (h : ∀ a, Reads mem dir vp a → load32 mem' a = load32 mem a) :
    lookup mem' dir vp = lookup mem dir vp := by
  have hdir : pde mem' dir (vp / 1024) = pde mem dir (vp / 1024) := h _ (.inl rfl)
  unfold lookup
  rw [entry_congr hdir, hdir]
  split
  · next e he => rw [h e (.inr he)]
  · rfl

namespace SelfMapped

variable {i : Nat}

theorem entry_window (h : SelfMapped mem dir) (hi : i < 1024) :
    entry mem dir (1023 * 1024 + i) = some (dir + 4 * i) := by
  have hdiv : (1023 * 1024 + i) / 1024 = 1023 := by omega
  have hmod : (1023 * 1024 + i) % 1024 = i := by omega
  rw [entry_of_present (by rw [hdiv]; exact h.present), hdiv, hmod, h.frame]

theorem target_window (h : SelfMapped mem dir) (hi : i < 1024) (hp : Present (pde mem dir i)) :
    target mem dir (1023 * 1024 + i) = some (frameOf (pde mem dir i)) :=
  target_eq_some.mpr ⟨_, h.entry_window hi, hp, rfl⟩

theorem walk_dir (h : SelfMapped mem dir) (hi : i < 1024) :
    walk mem dir (0xfffff000 + 4 * i) = some (dir + 4 * i) := by
  have ht := h.target_window (by decide) h.present
  rw [h.frame] at ht
  have hw := walk_of_target ht (show 4 * i < 4096 by omega)
  rwa [show 4096 * (1023 * 1024 + 1023) + 4 * i = 0xfffff000 + 4 * i by omega] at hw

theorem walk_table (h : SelfMapped mem dir) (hi : i < 1024) (hp : Present (pde mem dir i))
    {off : Nat} (hoff : off < 4096) :
    walk mem dir (0xffc00000 + 4096 * i + off) = some (frameOf (pde mem dir i) + off) := by
  have hw := walk_of_target (h.target_window hi hp) hoff
  rwa [show 4096 * (1023 * 1024 + i) + off = 0xffc00000 + 4096 * i + off by omega] at hw

end SelfMapped

end OriginOS.Lib
