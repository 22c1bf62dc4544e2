import OriginOS.Kernel.Print
import OriginOS.Kernel.Stdio

/-! `printk` of `lib/kernel/stdio-kernel.c` and `printf` of `lib/stdio.c`, down to the screen. Both
put the text together in `char buf[1024]`, which is zeroed first. The lock that `console_put_str`
holds meanwhile is left out. -/

namespace OriginOS

open Lib

/-- `put_str`, with the string in memory. -/
def putStrLoop (mem : Nat → UInt8) : Nat → Nat → Console →
    Except FormatStop (Except Fault Console)
  | 0, _, _ => .error .long
  | fuel + 1, ebx, c =>
    if mem ebx = 0 then .ok (.ok c)
    else match putChar (mem ebx) c with
      | .error e => .ok (.error e)
      | .ok (_, c) => putStrLoop mem fuel (ebx + 1) c

/-- What `printk` and `printf` begin with. The words of `frame` are the format and the
arguments. -/
def formatBuf (fuel : Nat) (mem : Nat → UInt8) (buf frame : Nat) :
    Except FormatStop (Nat → UInt8) := do
  let mem := fill mem buf 1024 0
  let (s, len) ← vsprintf fuel mem buf (load32 mem frame) frame
  let _ ← len
  pure s.out.mem

def printk (fuel : Nat) (mem : Nat → UInt8) (buf frame : Nat) (c : Console) :
    Except FormatStop (Except Fault Console) := do
  let mem ← formatBuf fuel mem buf frame
  putStrLoop mem fuel buf c

def sysWrite (fuel : Nat) (mem : Nat → UInt8) (str : Nat) (c : Console) :
    Except FormatStop (Except Fault (Nat × Console)) := do
  match ← putStrLoop mem fuel str c with
  | .error e => pure (.error e)
  | .ok c => do
    let len ← strlen fuel mem str
    pure (.ok (len, c))

/-- `printf`, where `write` is the system call. -/
def printf (fuel : Nat) (mem : Nat → UInt8) (buf frame : Nat) (c : Console) :
    Except FormatStop (Except Fault (Nat × Console)) := do
  let mem ← formatBuf fuel mem buf frame
  sysWrite fuel mem buf c

section Printk

variable {mem : Nat → UInt8} {buf frame fuel : Nat} {fmt text : List UInt8} {args : List Arg}

theorem putStrLoop_string {p : Nat} (h : StringAt mem p text) (hfuel : text.length < fuel)
    (c : Console) : putStrLoop mem fuel p c = .ok ((putStr text c).map (·.2)) := by
  refine h.walk (motive := fun fuel p text =>
    ∀ c, putStrLoop mem fuel p c = .ok ((putStr text c).map (·.2))) ?_ ?_ hfuel c
  · intro fuel p hp c
    rw [putStrLoop, if_pos hp]
    rfl
  · intro fuel p text hne ih c
    rw [putStrLoop, if_neg hne]
    cases hput : putChar (mem p) c with
    | error e =>
      rw [putStr, bind_of_error hput]
      rfl
    | ok r =>
      rw [putStr, bind_of_ok hput]
      exact ih r.2

/-- A call with arguments for its format, none of them the character 0, whose text and the 0 behind
it fit into the buffer. The format and the arguments are elsewhere. -/
structure Printable (mem : Nat → UInt8) (buf frame : Nat) (fmt : List UInt8) (args : List Arg) :
    Prop where
  format : FormatOk fmt
  kinds : args.map Arg.letter = conversions fmt
  chars : ∀ c, Arg.chr c ∈ args → c ≠ 0
  buffer : buf ≠ 0
  fits : (render fmt args).length < 1024
  inputs : Inputs (fill mem buf 1024 0) (fun b => b < buf ∨ buf + 1024 ≤ b)
    (load32 (fill mem buf 1024 0) frame) frame fmt args

/-- The buffer then holds the text as a string, and no other byte has changed. -/
theorem Printable.formatBuf (h : Printable mem buf frame fmt args)
    (hfuel : fmt.length + 1024 ≤ fuel) :
    ∃ mem', formatBuf fuel mem buf frame = .ok mem' ∧ StringAt mem' buf (render fmt args) ∧
      ∀ b, b < buf ∨ buf + 1024 ≤ b → mem' b = mem b := by
  have hfits := h.fits
  have hrender : Rendering fmt args (render fmt args) :=
    rendering_render fmt.length (Nat.le_refl _) h.format h.kinds
  obtain ⟨s, hrun, hputs, -, hend⟩ := @vsprintfLoop_rendering fuel fuel
    ⟨⟨fill mem buf 1024 0, buf⟩, load32 (fill mem buf 1024 0) frame,
      fill mem buf 1024 0 (load32 (fill mem buf 1024 0) frame), frame⟩ _ _ _ _ hrender
    h.inputs.string h.inputs.apart h.inputs.words rfl h.buffer
    (fun b hb hb' hsafe => by dsimp only at hb hb'; omega) (by omega) (by omega)
  -- whatever is last in the format, the byte behind the text is a 0 of the buffer
  have hstring : StringAt s.out.mem buf (render fmt args) := by
    refine stringAt_iff.mpr ⟨hrender.ne_zero (stringAt_iff.mp h.inputs.string).1 h.inputs.words
      h.chars, hputs.writes.written, ?_⟩
    rw [← show s.out.bufPtr = buf + _ from hputs.bufPtr, hend, hputs.bufPtr]
    split
    · rfl
    · exact fill_apply_of_mem ⟨Nat.le_add_right _ _, Nat.add_lt_add_left hfits buf⟩
  refine ⟨s.out.mem, ?_, hstring, fun b hb => ?_⟩
  · unfold OriginOS.formatBuf vsprintf
    dsimp only
    rw [hrun, except_ok_bind]
    show (strlen fuel s.out.mem buf >>= fun _ => _) = _
    rw [strlen_string hstring h.buffer (by omega), except_ok_bind]
    rfl
  · exact (hputs.writes.kept b (show b < buf ∨ buf + _ < b by omega)).trans (fill_apply_of_not hb)

/-- `printk` and `printf` put exactly the text on the screen, whatever was in the buffer before, and
change nothing outside it; `printf` returns the length of the text. On the screen, they return if
the text has no backspace at the first position. -/
theorem printk_shows_text (h : Printable mem buf frame fmt args) (c : Console) :
    ∃ n, ∀ fuel ≥ n,
      (∃ mem', formatBuf fuel mem buf frame = .ok mem' ∧
        ∀ b, b < buf ∨ buf + 1024 ≤ b → mem' b = mem b) ∧
      printk fuel mem buf frame c = .ok ((putStr (render fmt args) c).map (·.2)) ∧
      printf fuel mem buf frame c =
        .ok ((putStr (render fmt args) c).map fun r => ((render fmt args).length, r.2)) ∧
      (c.cursor < 2000 → NoBackspaceFirst c.cursor (render fmt args) →
        ∃ t, printk fuel mem buf frame c = .ok (.ok t) ∧ t.cursor < 2000 ∧
          StaysOnScreen (render fmt args) c) := by
  refine ⟨fmt.length + 1024, fun fuel hfuel => ?_⟩
  have hfits := h.fits
  obtain ⟨mem', hformat, hstring, hkept⟩ := h.formatBuf hfuel
  have hput := @putStrLoop_string _ fuel _ _ hstring (by omega) c
  have hprintk : printk fuel mem buf frame c = .ok ((putStr (render fmt args) c).map (·.2)) := by
    rw [printk, hformat, except_ok_bind, hput]
  refine ⟨⟨mem', hformat, hkept⟩, hprintk, ?_, fun hc hback => ?_⟩
  · rw [printf, hformat, except_ok_bind, sysWrite, hput, except_ok_bind,
      strlen_string hstring h.buffer (by omega)]
    cases putStr (render fmt args) c <;> rfl
  · have hstays := (staysOnScreen_iff _ hc).mpr hback
    obtain ⟨t, ht, hcursor⟩ := hstays.putStr_ok hc
    exact ⟨t, by rw [hprintk, ht]; rfl, hcursor, hstays⟩

end Printk

theorem errorPrintable : Printable (errorMem 0xcc) 1000 204 errorFormat errorArgs := by
  have hcall := @errorCall 0xcc (by decide)
  have hformat : load32 (fill (errorMem 0xcc) 1000 1024 0) 204 = 100 := by decide
  have hname : load32 (fill (errorMem 0xcc) 1000 1024 0) (204 + 4) = 300 := by decide
  refine ⟨hcall.format, hcall.kinds, hcall.chars, by decide, by decide +kernel, ?_⟩
  rw [hformat]
  refine ⟨by decide, fun b _ hb => .inl (by simp [errorFormat] at hb; omega),
    ⟨fun b _ _ => .inl (by omega), ?_⟩, ⟨fun b _ _ => .inl (by omega), by decide⟩, trivial⟩
  rw [hname]
  exact ⟨by decide, fun b _ hb => .inl (by simp at hb; omega), by decide⟩

/-- The error message of `ide_read`, over a buffer of bytes `0xcc`. -/
theorem printk_shows_text_error : ∃ n, ∀ fuel ≥ n, ∃ t,
    printk fuel (errorMem 0xcc) 1000 204 blankScreen = .ok (.ok t) ∧ t.cursor < 2000 := by
  obtain ⟨n, hn⟩ := printk_shows_text errorPrintable blankScreen
  refine ⟨n, fun fuel hfuel => ?_⟩
  obtain ⟨t, ht, hcursor, -⟩ := (hn fuel hfuel).2.2.2 (by decide) (by decide +kernel)
  exact ⟨t, ht, hcursor⟩

end OriginOS
