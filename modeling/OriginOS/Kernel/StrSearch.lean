import OriginOS.Kernel.Stdio

/-! `strchr`, `strrchr` and `strchrs` of `lib/string.c`.

The bytes of the string are plain `char`s, which are signed, and the byte that is looked for is a
`uint8_t`. Both are promoted to `int` before they are compared. -/

namespace OriginOS

open Lib

def charInt (c : UInt8) : Int := c.toBitVec.toInt

def uint8Int (c : UInt8) : Int := c.toNat

def Matches (ch c : UInt8) : Prop := charInt c = uint8Int ch

instance (ch c : UInt8) : Decidable (Matches ch c) := inferInstanceAs (Decidable (_ = _))

def strchrLoop (mem : Nat → UInt8) (ch : UInt8) : Nat → Nat → Except FormatStop Nat
  | 0, _ => .error .long
  | fuel + 1, str =>
    if charInt (mem str) ≠ 0 then
      if Matches ch (mem str) then .ok str else strchrLoop mem ch fuel (str + 1)
    else .ok 0

def strchr (fuel : Nat) (mem : Nat → UInt8) (str : Nat) (ch : UInt8) : Except FormatStop Nat :=
  if str ≠ 0 then strchrLoop mem ch fuel str
  else .error (.panic ⟨"./lib/string.c", 70, "strchr", "str != NULL"⟩)

def strrchrLoop (mem : Nat → UInt8) (ch : UInt8) : Nat → Nat → Nat → Except FormatStop Nat
  | 0, _, _ => .error .long
  | fuel + 1, str, lastChar =>
    if charInt (mem str) ≠ 0 then
      let lastChar := if Matches ch (mem str) then str else lastChar
      strrchrLoop mem ch fuel (str + 1) lastChar
    else .ok lastChar

def strrchr (fuel : Nat) (mem : Nat → UInt8) (str : Nat) (ch : UInt8) : Except FormatStop Nat :=
  if str ≠ 0 then strrchrLoop mem ch fuel str 0
  else .error (.panic ⟨"./lib/string.c", 83, "strrchr", "str !=NULL"⟩)

def strchrsLoop (mem : Nat → UInt8) (ch : UInt8) : Nat → Nat → UInt32 → Except FormatStop UInt32
  | 0, _, _ => .error .long
  | fuel + 1, p, chCnt =>
    if charInt (mem p) ≠ 0 then
      let chCnt := if Matches ch (mem p) then chCnt + 1 else chCnt
      strchrsLoop mem ch fuel (p + 1) chCnt
    else .ok chCnt

def strchrs (fuel : Nat) (mem : Nat → UInt8) (str : Nat) (ch : UInt8) : Except FormatStop UInt32 :=
  if str ≠ 0 then strchrsLoop mem ch fuel str 0
  else .error (.panic ⟨"./lib/string.c", 104, "strchrs", "str != NULL"⟩)

/-! ### What is meant -/

/-- `p` is `NULL` if no byte of the text is equal to `ch`, and otherwise points to the one whose
index `At` describes. -/
structure PointsTo (text : List UInt8) (ch : UInt8) (str : Nat) (At : Nat → Prop) (p : Nat) :
    Prop where
  null : p = 0 ↔ ch ∉ text
  position : ch ∈ text → ∃ k, At k ∧ p = str + k

/-- The three functions find the bytes of the text that are equal to `ch`. -/
structure CharSearch (fuel : Nat) (mem : Nat → UInt8) (str : Nat) (text : List UInt8)
    (ch : UInt8) : Prop where
  strchr : ∃ p, strchr fuel mem str ch = .ok p ∧ PointsTo text ch str (FirstIdx (· = ch) text) p
  strrchr : ∃ p, strrchr fuel mem str ch = .ok p ∧ PointsTo text ch str (LastIdx (· = ch) text) p
  strchrs : ∃ n, strchrs fuel mem str ch = .ok n ∧ n.toNat = text.count ch

/-! ### The loops -/

theorem charInt_eq_zero {c : UInt8} : charInt c = 0 ↔ c = 0 := by
  have hlt := c.toNat_lt
  rw [charInt, BitVec.toInt_eq_toNat_cond, ← UInt8.toNat_inj]
  show (if 2 * c.toNat < 2 ^ 8 then (c.toNat : Int) else c.toNat - (2 ^ 8 : Nat)) = 0 ↔ c.toNat = 0
  omega

/-- A byte from 128 on is a negative `char`, and is not equal to any `uint8_t`. -/
theorem matches_iff {ch c : UInt8} : Matches ch c ↔ c = ch ∧ ch.toNat < 128 := by
  have hlt := c.toNat_lt
  have hlt' := ch.toNat_lt
  rw [Matches, charInt, uint8Int, BitVec.toInt_eq_toNat_cond, ← UInt8.toNat_inj]
  show (if 2 * c.toNat < 2 ^ 8 then (c.toNat : Int) else c.toNat - (2 ^ 8 : Nat)) = ch.toNat ↔ _
  omega

/-- What a loop has found, in terms of the comparison that it makes: `none` if nothing. -/
def Hit (ch : UInt8) (text : List UInt8) (none str : Nat) (At : Nat → Prop) (p : Nat) : Prop :=
  (∀ c ∈ text, ¬ Matches ch c) ∧ p = none ∨ ∃ k, At k ∧ p = str + k

section Loops

variable {mem : Nat → UInt8} {ch c : UInt8} {fuel str none p : Nat} {text : List UInt8}
  {At At' : Nat → Prop}

theorem Hit.nil (ch : UInt8) (none str : Nat) (At : Nat → Prop) : Hit ch [] none str At none :=
  .inl ⟨fun _ hc => absurd hc List.not_mem_nil, rfl⟩

theorem Hit.cons (h : Hit ch text none (str + 1) At p) (hm : ¬ Matches ch c)
    (hAt : ∀ k, At k → At' (k + 1)) : Hit ch (c :: text) none str At' p := by
  rcases h with ⟨hnone, rfl⟩ | ⟨k, hk, rfl⟩
  · exact .inl ⟨List.forall_mem_cons.mpr ⟨hm, hnone⟩, rfl⟩
  · exact .inr ⟨k + 1, hAt k hk, by omega⟩

variable (ch) in
theorem strchrLoop_hit (h : StringAt mem str text) (hfuel : text.length < fuel) :
    ∃ p, strchrLoop mem ch fuel str = .ok p ∧
      Hit ch text 0 str (FirstIdx (Matches ch) text) p := by
  refine h.walk (motive := fun fuel str text => ∃ p, strchrLoop mem ch fuel str = .ok p ∧
    Hit ch text 0 str (FirstIdx (Matches ch) text) p) ?_ ?_ hfuel
  · intro fuel str hzero
    exact ⟨0, if_neg (not_not_intro (charInt_eq_zero.mpr hzero)), .nil ..⟩
  · rintro fuel str text hne ⟨p, hp, hit⟩
    rw [strchrLoop, if_pos (mt charInt_eq_zero.mp hne)]
    by_cases hm : Matches ch (mem str)
    · exact ⟨str, if_pos hm, .inr ⟨0, .head hm, rfl⟩⟩
    · exact ⟨p, (if_neg hm).trans hp, hit.cons hm fun k hk => hk.cons hm⟩

variable (ch) in
theorem strrchrLoop_hit (h : StringAt mem str text) (hfuel : text.length < fuel) (lastChar : Nat) :
    ∃ p, strrchrLoop mem ch fuel str lastChar = .ok p ∧
      Hit ch text lastChar str (LastIdx (Matches ch) text) p := by
  refine h.walk (motive := fun fuel str text => ∀ lastChar, ∃ p,
    strrchrLoop mem ch fuel str lastChar = .ok p ∧
      Hit ch text lastChar str (LastIdx (Matches ch) text) p) ?_ ?_ hfuel lastChar
  · intro fuel str hzero lastChar
    exact ⟨lastChar, if_neg (not_not_intro (charInt_eq_zero.mpr hzero)), .nil ..⟩
  · intro fuel str text hne ih lastChar
    rw [strrchrLoop, if_pos (mt charInt_eq_zero.mp hne)]
    by_cases hm : Matches ch (mem str)
    · obtain ⟨p, hp, hit⟩ := ih str
      rw [if_pos hm]
      refine ⟨p, hp, .inr ?_⟩
      rcases hit with ⟨hnone, rfl⟩ | ⟨k, hk, rfl⟩
      · exact ⟨0, .head hm hnone, rfl⟩
      · exact ⟨k + 1, hk.cons, by omega⟩
    · obtain ⟨p, hp, hit⟩ := ih lastChar
      rw [if_neg hm]
      exact ⟨p, hp, hit.cons hm fun k hk => hk.cons⟩

theorem strchrsLoop_count (h : StringAt mem str text) (hfuel : text.length < fuel)
    (chCnt : UInt32) : strchrsLoop mem ch fuel str chCnt =
      .ok (chCnt + UInt32.ofNat (text.countP (Matches ch ·))) := by
  refine h.walk (motive := fun fuel str text => ∀ chCnt, strchrsLoop mem ch fuel str chCnt =
    .ok (chCnt + UInt32.ofNat (text.countP (Matches ch ·)))) ?_ ?_ hfuel chCnt
  · intro fuel str hzero chCnt
    rw [strchrsLoop, if_neg (not_not_intro (charInt_eq_zero.mpr hzero)), List.countP_nil]
    exact congrArg Except.ok (UInt32.add_zero chCnt).symm
  · intro fuel str text hne ih chCnt
    rw [strchrsLoop, if_pos (mt charInt_eq_zero.mp hne), ih, List.countP_cons]
    by_cases hm : Matches ch (mem str)
    · rw [if_pos hm, if_pos (decide_eq_true hm), Nat.add_comm _ 1, UInt32.ofNat_add,
        UInt32.add_assoc]
      rfl
    · rw [if_neg hm, if_neg (by simpa using hm), Nat.add_zero]

/-- If the comparison is right for every byte of the text, what a loop has found is what is meant.
-/
theorem Hit.pointsTo (h : Hit ch text 0 str At p) (hstr : str ≠ 0)
    (heq : ∀ c ∈ text, Matches ch c ↔ c = ch) (hAt : ∀ k, At k → At' k ∧ ch ∈ text) :
    PointsTo text ch str At' p := by
  rcases h with ⟨hnone, rfl⟩ | ⟨k, hk, rfl⟩
  · have hmem : ch ∉ text := fun hmem => hnone ch hmem ((heq ch hmem).mpr rfl)
    exact ⟨iff_of_true rfl hmem, fun h => absurd h hmem⟩
  · obtain ⟨hk, hmem⟩ := hAt k hk
    exact ⟨iff_of_false (by omega) (not_not_intro hmem), fun _ => ⟨k, hk, rfl⟩⟩

end Loops

section Search

variable {mem : Nat → UInt8} {ch : UInt8} {fuel str : Nat} {text : List UInt8}

theorem charSearch_of_matches (h : StringAt mem str text) (hstr : str ≠ 0)
    (hfuel : text.length < fuel) (hend : str + text.length < 2 ^ 32)
    (heq : ∀ c ∈ text, Matches ch c ↔ c = ch) : CharSearch fuel mem str text ch := by
  have hmem : ∀ k : Nat, (∃ c, text[k]? = some c ∧ c = ch) → ch ∈ text := by
    rintro k ⟨c, hc, rfl⟩
    exact List.mem_of_getElem? hc
  refine ⟨?_, ?_, _, (if_pos hstr).trans (strchrsLoop_count h hfuel 0), ?_⟩
  · obtain ⟨p, hp, hit⟩ := strchrLoop_hit ch h hfuel
    refine ⟨p, (if_pos hstr).trans hp, hit.pointsTo hstr heq fun k hk => ?_⟩
    have hk := hk.congr heq
    exact ⟨hk, hmem k hk.found⟩
  · obtain ⟨p, hp, hit⟩ := strrchrLoop_hit ch h hfuel 0
    refine ⟨p, (if_pos hstr).trans hp, hit.pointsTo hstr heq fun k hk => ?_⟩
    have hk := hk.congr heq
    exact ⟨hk, hmem k hk.found⟩
  · have hcount : text.countP (Matches ch ·) = text.count ch :=
      List.countP_congr fun c hc => by simpa using heq c hc
    have hle : text.count ch ≤ text.length := List.count_le_length
    rw [hcount, UInt32.zero_add,
      UInt32.toNat_ofNat_of_lt' (show text.count ch < 2 ^ 32 by omega)]

/-- `strchr`, `strrchr` and `strchrs` find the bytes equal to `ch` in a string that holds none, and
in every string if `ch` is less than 128. -/
theorem char_search_iff (h : StringAt mem str text) (hstr : str ≠ 0) (hfuel : text.length < fuel)
    (hend : str + text.length < 2 ^ 32) :
    CharSearch fuel mem str text ch ↔ ch.toNat < 128 ∨ ch ∉ text := by
  constructor
  · intro hsearch
    by_contra hnot
    obtain ⟨hge, hmem⟩ := not_or.mp hnot
    have hno : ∀ c, ¬ Matches ch c := fun c hm => hge (matches_iff.mp hm).2
    obtain ⟨p, hp, hpoints⟩ := hsearch.strchr
    obtain ⟨p', hp', hit⟩ := strchrLoop_hit ch h hfuel
    obtain rfl : p = p' := Except.ok.inj (hp.symm.trans ((if_pos hstr).trans hp'))
    rcases hit with ⟨-, hnull⟩ | ⟨k, hk, -⟩
    · exact hmem (hpoints.null.mp hnull)
    · obtain ⟨c, -, hm⟩ := hk.found
      exact hno c hm
  · intro hcond
    refine charSearch_of_matches h hstr hfuel hend fun c hc => matches_iff.trans ?_
    constructor
    · exact fun h => h.1
    · rintro rfl
      exact ⟨rfl, hcond.resolve_right (not_not_intro hc)⟩

/-- The string `a/b` at address 1. -/
theorem char_search_slash :
    CharSearch 4 (fun a => [0, 97, 47, 98].getD a 0) 1 [97, 47, 98] 47 :=
  (char_search_iff (by decide) (by decide) (by decide) (by decide)).mpr (.inl (by decide))

/-- A string of one byte, which is not found. -/
theorem char_search_high_byte :
    let mem : Nat → UInt8 := fun a => if a = 1 then 0xe9 else 0
    StringAt mem 1 [0xe9] ∧ strchr 2 mem 1 0xe9 = .ok 0 ∧ strrchr 2 mem 1 0xe9 = .ok 0 ∧
      strchrs 2 mem 1 0xe9 = .ok 0 ∧ ¬ CharSearch 2 mem 1 [0xe9] 0xe9 := by
  refine ⟨by decide, rfl, rfl, rfl, fun h => ?_⟩
  obtain ⟨p, hp, hpoints⟩ := h.strchr
  obtain rfl : 0 = p := Except.ok.inj hp
  exact hpoints.null.mp rfl (List.mem_singleton.mpr rfl)

end Search

end OriginOS
