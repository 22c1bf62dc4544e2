import OriginOS.Kernel.Memory

/-! What the small parts of `kernel/memory.c` do: accesses to mapped pages, `memset` and `memcpy`,
the addresses of page table entries, the bits of a range, and an uncontended lock. -/

namespace OriginOS

open Lib

namespace Mem

section Basic

variable {α β : Type} {s : MemState} {E : Stop → Prop} {R : β → MemState → Prop}

theorem read_bind (f : MemState → Mem β) (s : MemState) : (Prog.read >>= f) s = f s s := rfl

theorem write_bind (t : MemState) (f : Unit → Mem β) (s : MemState) :
    (Prog.write t >>= f) s = f () t := rfl

theorem ensures_read_bind {f : MemState → Mem β} (h : Ensures (f s) E R s) :
    Ensures (Prog.read >>= f) E R s := h

theorem ofPanic_ok {a : α} : ofPanic (.ok a) s = .ok (a, s) := rfl

theorem ensures_ofPanic {x : Except Panic α} {Q : α → MemState → Prop}
    (hok : ∀ a, x = .ok a → Q a s) (herr : ∀ p, x = .error p → E (.panic p)) :
    Ensures (ofPanic x) E Q s := by
  cases x with
  | ok a => exact hok a rfl
  | error p => exact herr p rfl

theorem assert_ok {c : Bool} (p : Panic) (hc : c = true) : assert c p s = .ok ((), s) := by
  rw [assert, read_bind, hc]
  cases s.ndebug <;> rfl

theorem assert_stops {c : Bool} (p : Panic) (hdebug : s.ndebug = false) (hc : c = false) :
    assert c p s = .error (.panic p) := by
  unfold assert
  rw [read_bind, hdebug, hc]
  rfl

theorem ensures_assert {c : Bool} {p : Panic} {Q : Unit → MemState → Prop}
    (hdebug : s.ndebug = false) (hok : c = true → Q () s) (herr : E (.panic p)) :
    Ensures (assert c p) E Q s := by
  cases hc : c with
  | true => exact ensures_of_ok (assert_ok p rfl) (hok hc)
  | false =>
    unfold Ensures
    rw [assert, read_bind, hdebug]
    exact herr

end Basic

/-! ### Accesses -/

section Access

variable {s : MemState} {va pa : Nat}

theorem translate_ok (h : walk s.phys s.cr3 va = some pa) : translate va s = .ok (pa, s) := by
  rw [translate, read_bind, h]
  rfl

theorem loadByte_ok (h : walk s.phys s.cr3 va = some pa) :
    loadByte va s = .ok (s.phys pa, s) := by
  rw [loadByte, bind_of_ok (translate_ok h)]
  rfl

theorem loadWord_ok (h : walk s.phys s.cr3 va = some pa) :
    loadWord va s = .ok (load32 s.phys pa, s) := by
  rw [loadWord, bind_of_ok (translate_ok h)]
  rfl

theorem storeByte_ok (h : walk s.phys s.cr3 va = some pa) (v : UInt8) :
    storeByte va v s = .ok ((), s.setPhys (Function.update s.phys pa v)) := by
  rw [storeByte, bind_of_ok (translate_ok h)]
  rfl

theorem storeWord_ok (h : walk s.phys s.cr3 va = some pa) (w : Nat) :
    storeWord va w s = .ok ((), s.setPhys (store32 s.phys pa w)) := by
  rw [storeWord, bind_of_ok (translate_ok h)]
  rfl

theorem memsetLoop_ok {size : Nat} (value : UInt8)
    (h : ∀ k < size, ∀ mem, (∀ a, a < pa ∨ pa + size ≤ a → mem a = s.phys a) →
      walk mem s.cr3 (va + k) = some (pa + k)) :
    memsetLoop value size va s = .ok ((), s.setPhys (fill s.phys pa size value)) := by
  induction size generalizing s va pa with
  | zero =>
    rw [fill_zero]
    rfl
  | succ size ih =>
    have hhead : walk s.phys s.cr3 va = some pa := h 0 (Nat.succ_pos size) s.phys fun _ _ => rfl
    rw [memsetLoop, bind_of_ok (storeByte_ok hhead value), ← fill_update]
    refine ih fun k hk mem hmem => ?_
    have hstep := h (k + 1) (by omega) mem fun a ha => ?_
    · rwa [Nat.add_right_comm va 1 k, Nat.add_right_comm pa 1 k]
    · rw [hmem a (by omega)]
      exact Function.update_of_ne (by omega) ..

theorem memcpyLoop_ok {src ps size : Nat} (hapart : ps + size ≤ pa ∨ pa + size ≤ ps)
    (h : ∀ k < size, ∀ mem, (∀ a, a < pa ∨ pa + size ≤ a → mem a = s.phys a) →
      walk mem s.cr3 (va + k) = some (pa + k) ∧ walk mem s.cr3 (src + k) = some (ps + k)) :
    memcpyLoop size va src s = .ok ((), s.setPhys (copy s.phys pa ps size)) := by
  induction size generalizing s va pa src ps with
  | zero =>
    rw [copy_zero]
    rfl
  | succ size ih =>
    obtain ⟨hdst, hsrc⟩ : walk s.phys s.cr3 va = some pa ∧ walk s.phys s.cr3 src = some ps :=
      h 0 (Nat.succ_pos size) s.phys fun _ _ => rfl
    rw [memcpyLoop, bind_of_ok (loadByte_ok hsrc), bind_of_ok (storeByte_ok hdst _),
      ← copy_update s.phys hapart]
    refine ih (by omega) fun k hk mem hmem => ?_
    have hstep := h (k + 1) (by omega) mem fun a ha => ?_
    · rwa [Nat.add_right_comm va 1 k, Nat.add_right_comm pa 1 k, Nat.add_right_comm src 1 k,
        Nat.add_right_comm ps 1 k]
    · rw [hmem a (by omega)]
      exact Function.update_of_ne (by omega) ..

end Access

/-! ### Addresses of entries -/

theorem pdeIdx_eq {v : Nat} (hv : v < 2 ^ 32) : pdeIdx v = v / 4096 / 1024 := by
  rw [pdeIdx, show 0xffc00000 = 2 ^ 22 * (2 ^ (32 - 22) - 1) by rfl, and_high_mask hv (by decide),
    Nat.shiftRight_eq_div_pow]
  omega

theorem pteIdx_eq (v : Nat) : pteIdx v = v / 4096 % 1024 := by
  rw [pteIdx, Nat.shiftRight_and_distrib, Nat.shiftRight_eq_div_pow]
  exact Nat.and_two_pow_sub_one_eq_mod _ 10

theorem ptePtr_eq {v : Nat} (hv : v < 2 ^ 32) :
    ptePtr v = 0xffc00000 + 4096 * (v / 4096 / 1024) + 4 * (v / 4096 % 1024) := by
  rw [ptePtr, pteIdx_eq, show 0xffc00000 = 2 ^ 22 * (2 ^ (32 - 22) - 1) by rfl,
    and_high_mask hv (by decide), Nat.shiftRight_eq_div_pow]
  omega

theorem pdePtr_eq {v : Nat} (hv : v < 2 ^ 32) : pdePtr v = 0xfffff000 + 4 * (v / 4096 / 1024) := by
  rw [pdePtr, pdeIdx_eq hv, Nat.mul_comm]

theorem pageEntry_eq {p : Nat} (hp : p % 4096 = 0) : pageEntry p = p + 7 := by
  rw [pageEntry, Nat.or_assoc, Nat.or_assoc]
  exact or_low (k := 12) hp (by decide)

theorem present_pageEntry {p : Nat} (hp : p % 4096 = 0) : Present (pageEntry p) := by
  rw [pageEntry_eq hp, Present]
  omega

theorem frameOf_pageEntry {p : Nat} (hp : p % 4096 = 0) : frameOf (pageEntry p) = p := by
  rw [pageEntry_eq hp]
  exact frameOf_of_aligned hp (by decide)

theorem and_one_ne_zero {w : Nat} : w &&& 0x00000001 ≠ 0 ↔ Present w := by
  rw [Nat.and_one_is_mod, Present]
  omega

theorem and_one_eq_zero {w : Nat} : w &&& 0x00000001 = 0 ↔ ¬ Present w := by
  rw [← and_one_ne_zero, not_not]

theorem and_not_present {w : Nat} (hw : w < 2 ^ 32) : w &&& 0xfffffffe = w / 2 * 2 :=
  and_high_mask hw (k := 1) (by decide)

section Window

variable {s : MemState} {v : Nat}

theorem walk_pdePtr (h : SelfMapped s.phys s.cr3) (hv : v < 2 ^ 32) :
    walk s.phys s.cr3 (pdePtr v) = some (s.cr3 + 4 * (v / 4096 / 1024)) := by
  rw [pdePtr_eq hv]
  exact h.walk_dir (by omega)

theorem walk_ptePtr (h : SelfMapped s.phys s.cr3) (hv : v < 2 ^ 32) {e : Nat}
    (he : entry s.phys s.cr3 (v / 4096) = some e) :
    walk s.phys s.cr3 (ptePtr v) = some e := by
  obtain ⟨hp, rfl⟩ := entry_eq_some.mp he
  rw [ptePtr_eq hv]
  exact h.walk_table (by omega) hp (by omega)

theorem addrV2p_ok (h : SelfMapped s.phys s.cr3) (hv : v < 2 ^ 32) {f : Nat}
    (hf : target s.phys s.cr3 (v / 4096) = some f) : addrV2p v s = .ok (f + v % 4096, s) := by
  obtain ⟨e, he, hp, rfl⟩ := target_eq_some.mp hf
  have hoff : v &&& 0x00000fff = v % 4096 := Nat.and_two_pow_sub_one_eq_mod v 12
  rw [addrV2p, bind_of_ok (loadWord_ok (walk_ptePtr h hv he)), and_page_mask (load32_lt ..), hoff]
  rfl

end Window

/-! ### Bits of a range -/

end Mem

namespace Bitmap

/-- The bitmap with `n` bits from number `i` on set to `value`. -/
def putRun (btmp : Bitmap) (value : Bool) : Nat → Nat → Bitmap
  | 0, _ => btmp
  | n + 1, i => (btmp.put i value).putRun value n (i + 1)

variable (btmp : Bitmap) (value : Bool) (n i : Nat)

@[simp] theorem putRun_len : (btmp.putRun value n i).btmpBytesLen = btmp.btmpBytesLen := by
  induction n generalizing btmp i with
  | zero => rfl
  | succ n ih => exact ih _ _

@[simp] theorem putRun_addr : (btmp.putRun value n i).addr = btmp.addr := by
  induction n generalizing btmp i with
  | zero => rfl
  | succ n ih => exact ih _ _

theorem bit_putRun (j : Nat) :
    (btmp.putRun value n i).bit j = if i ≤ j ∧ j < i + n then value else btmp.bit j := by
  induction n generalizing btmp i with
  | zero => rw [putRun, if_neg (by omega)]
  | succ n ih =>
    rw [putRun, ih, bit_put]
    by_cases hj : j = i
    · rw [if_pos hj, if_neg (by omega), if_pos (by omega)]
    · rw [if_neg hj]
      by_cases hmem : i + 1 ≤ j ∧ j < i + 1 + n
      · rw [if_pos hmem, if_pos (by omega)]
      · rw [if_neg hmem, if_neg (by omega)]

end Bitmap

theorem vaddr_setVaddrBitmap (s : MemState) (pf : PoolFlags) (b : Bitmap) :
    ((s.setVaddrBitmap pf b).vaddr pf).vaddrBitmap = b := by
  cases pf with
  | kernel => rfl
  | user => simp [MemState.vaddr, MemState.setVaddrBitmap]

namespace Mem

theorem bitmapSetLoop_one (ndebug : Bool) (btmp : Bitmap) (n i : Nat) :
    bitmapSetLoop ndebug 1 n i btmp = .ok (btmp.putRun true n i) := by
  induction n generalizing btmp i with
  | zero => rfl
  | succ n ih => rw [bitmapSetLoop, bitmapSet_one, ok_bind, ih, Bitmap.putRun]

theorem bitmapSetLoop_zero (ndebug : Bool) (btmp : Bitmap) (n i : Nat) :
    bitmapSetLoop ndebug 0 n i btmp = .ok (btmp.putRun false n i) := by
  induction n generalizing btmp i with
  | zero => rfl
  | succ n ih => rw [bitmapSetLoop, bitmapSet_zero, ok_bind, ih, Bitmap.putRun]

/-! ### An uncontended lock -/

section Locks

variable {s : MemState} {pf : PoolFlags}

theorem lockAcquire_ok (h : s.lock pf = lockInit) :
    lockAcquire pf s = .ok ((), s.setLock pf ⟨0, some s.runningThread, 1⟩) := by
  rw [lockAcquire, read_bind, h]
  rw [if_pos (by simp [lockInit]), if_neg (by simp [lockInit])]
  rw [bind_of_ok (assert_ok _ (by decide)), bind_of_ok (assert_ok _ (by decide))]
  rfl

theorem lockRelease_ok (h : s.lock pf = ⟨0, some s.runningThread, 1⟩) :
    lockRelease pf s = .ok ((), s.setLock pf lockInit) := by
  rw [lockRelease, read_bind, h]
  rw [bind_of_ok (assert_ok _ (by simp)), if_neg (Nat.lt_irrefl 1)]
  rw [bind_of_ok (assert_ok _ (by simp)), bind_of_ok (assert_ok _ (by simp)),
    bind_of_ok (assert_ok _ (by simp))]
  rfl

end Locks

end Mem

end OriginOS
