import DeclStyle.Json.Parser
import DeclStyle.Json.Printer
import Mathlib.Tactic.SplitIfs

/-!
# Written strings and numbers

A string is written character by character, each as one part from which the reader gets that
character back.  The digits of a whole number are all taken by the reader, as long as the text
behind them does not go on like a number.

* `Json.escape_cases`, `Json.exists_part_of_escape` — the part of a string that a written character
  is;
* `Json.readString_escape` — a written string is read back;
* `Json.Delimited` — a text with which no number goes on;
* `Json.readNumber_intChars` — a written whole number of at most 64 bits is read back.
-/

namespace DeclStyle.Json

open Reader

variable {cs rest : List Char}

/-! ## Strings -/

/-- The three ways to write a character: by a short escape, by its code, and as it is. -/
theorem escape_cases (c : Char) :
    (∃ e, escape c = ['\\', e] ∧ e ≠ 'u' ∧ shortEscape? e = some c) ∨
    (escape c = ['\\', 'u', '0', '0', hexDigit (c.toNat / 16), hexDigit (c.toNat % 16)] ∧
      c.toNat < 0x20) ∨
    (escape c = [c] ∧ c ≠ '\x22' ∧ c ≠ '\\' ∧ ¬c.toNat < 0x20) := by
  unfold escape
  split_ifs with hquote hback hb ht hn hf hr hcontrol
  · exact .inl ⟨'\x22', rfl, by decide, by rw [hquote]; rfl⟩
  · exact .inl ⟨'\\', rfl, by decide, by rw [hback]; rfl⟩
  · exact .inl ⟨_, rfl, by decide, hb ▸ rfl⟩
  · exact .inl ⟨_, rfl, by decide, ht ▸ rfl⟩
  · exact .inl ⟨_, rfl, by decide, hn ▸ rfl⟩
  · exact .inl ⟨_, rfl, by decide, hf ▸ rfl⟩
  · exact .inl ⟨_, rfl, by decide, hr ▸ rfl⟩
  · exact .inr (.inl ⟨rfl, hcontrol⟩)
  · exact .inr (.inr ⟨rfl, hquote, hback, hcontrol⟩)

theorem stringParts_short {e c : Char} (he : e ≠ 'u') (h : shortEscape? e = some c) :
    stringParts ('\\' :: e :: cs) =
      (stringParts cs).map fun (parts, rest) => (.char c :: parts, rest) := by
  rw [stringParts, h]
  · cases stringParts cs <;> rfl
  · exact fun _ _ _ _ _ hu => absurd hu he

theorem stringParts_code {n : Nat} {a b c d : Char} (h : hexCode? [a, b, c, d] = some n) :
    stringParts ('\\' :: 'u' :: a :: b :: c :: d :: cs) =
      (stringParts cs).map fun (parts, rest) => (.code n :: parts, rest) := by
  rw [stringParts, h]
  cases stringParts cs <;> rfl

theorem stringParts_plain {c : Char} (hquote : c ≠ '\x22') (hback : c ≠ '\\')
    (hcontrol : ¬c.toNat < 0x20) :
    stringParts (c :: cs) =
      (stringParts cs).map fun (parts, rest) => (.char c :: parts, rest) := by
  rw [stringParts, if_neg (not_or.2 ⟨hcontrol, hback⟩)]
  · cases stringParts cs <;> rfl
  · exact hquote
  · exact fun _ _ _ _ _ h => absurd h hback
  · exact fun _ _ h => absurd h hback

/-- The four digits that stand for a control character. -/
theorem hexCode?_control {n : Nat} (h : n < 0x20) :
    hexCode? ['0', '0', hexDigit (n / 16), hexDigit (n % 16)] = some n := by
  revert n
  decide

/-- A code below the surrogates stands for the character of that code. -/
theorem joinParts_code {n : Nat} (h : n < 0xD800) (parts : List StringPart) :
    joinParts (.code n :: parts) = (joinParts parts).map (Char.ofNat n :: ·) := by
  rw [joinParts.eq_def]
  exact if_pos (Or.inl h)

/-- A written character is one part of a string, and the part stands for that character. -/
theorem exists_part_of_escape (c : Char) :
    ∃ part : StringPart,
      (∀ cs, stringParts (escape c ++ cs) =
        (stringParts cs).map fun (parts, rest) => (part :: parts, rest)) ∧
      ∀ parts, joinParts (part :: parts) = (joinParts parts).map (c :: ·) := by
  rcases escape_cases c with ⟨e, h, he, hshort⟩ | ⟨h, hcontrol⟩ | ⟨h, hquote, hback, hcontrol⟩
  · exact ⟨.char c, fun _ => h ▸ stringParts_short he hshort, fun _ => rfl⟩
  · refine ⟨.code c.toNat, fun _ => h ▸ stringParts_code (hexCode?_control hcontrol),
      fun parts => ?_⟩
    rw [joinParts_code (by omega), Char.ofNat_toNat]
  · exact ⟨.char c, fun _ => h ▸ stringParts_plain hquote hback hcontrol, fun _ => rfl⟩

/-- **A written string is read back**, its closing quote included. -/
theorem readString_escape (s : String) (rest : List Char) :
    readString (s.toList.flatMap escape ++ '\x22' :: rest) = some (s, rest) := by
  have hparts : ∀ cs : List Char, ∃ parts,
      stringParts (cs.flatMap escape ++ '\x22' :: rest) = some (parts, rest) ∧
        joinParts parts = some cs := by
    intro cs
    induction cs with
    | nil => exact ⟨[], rfl, rfl⟩
    | cons c cs ih =>
      obtain ⟨parts, hread, hjoin⟩ := ih
      obtain ⟨part, hpart, hchar⟩ := exists_part_of_escape c
      refine ⟨part :: parts, ?_, ?_⟩
      · rw [List.flatMap_cons, List.append_assoc, hpart, hread]
        rfl
      · rw [hchar, hjoin]
        rfl
  obtain ⟨parts, hread, hjoin⟩ := hparts s.toList
  simp [readString, hread, hjoin]

/-! ## Whole numbers -/

/-- A text with which no number goes on: nothing, or a comma or a closing mark with what is behind
it. -/
inductive Delimited : List Char → Prop where
  | nil : Delimited []
  | comma (cs : List Char) : Delimited (',' :: cs)
  | bracket (cs : List Char) : Delimited (']' :: cs)
  | brace (cs : List Char) : Delimited ('\x7d' :: cs)

theorem Delimited.digits (h : Delimited rest) : digits rest = ([], rest) := by
  cases h <;> rfl

theorem Delimited.fraction? (h : Delimited rest) : fraction? rest = some (none, rest) := by
  cases h <;> rfl

theorem Delimited.exponent? (h : Delimited rest) : exponent? rest = some (none, rest) := by
  cases h <;> rfl

theorem Delimited.skipBlanks (h : Delimited rest) : skipBlanks rest = rest := by
  cases h <;> rfl

theorem isDigit_of_mem_natChars {n : Nat} {c : Char} (h : c ∈ natChars n) : c.isDigit :=
  Nat.isDigit_of_mem_toDigits (by decide) (by decide) h

/-- A number begins with a digit, and not with zero unless it is zero. -/
theorem exists_natChars_eq_cons (n : Nat) :
    ∃ d cs, natChars n = Nat.digitChar d :: cs ∧ d < 10 ∧ (0 < n → 0 < d) := by
  induction n using Nat.strongRecOn with
  | ind n ih =>
    unfold natChars at ih ⊢
    rw [Nat.toDigits_eq_if (by decide)]
    split
    · rename_i hsmall
      exact ⟨n, [], rfl, hsmall, id⟩
    · obtain ⟨d, cs, hchars, hd, hpos⟩ := ih (n / 10) (by omega)
      rw [hchars]
      exact ⟨d, _, rfl, hd, fun _ => hpos (by omega)⟩

/-- The characters that a whole number may begin with. -/
def numberMarks : List Char := ['-', '0', '1', '2', '3', '4', '5', '6', '7', '8', '9']

theorem digitChar_mem_numberMarks : ∀ d < 10, Nat.digitChar d ∈ numberMarks := by decide

theorem exists_intChars_eq_cons (n : Int) : ∃ c ∈ numberMarks, ∃ cs, intChars n = c :: cs := by
  cases n with
  | ofNat n =>
    obtain ⟨d, cs, hchars, hd, -⟩ := exists_natChars_eq_cons n
    exact ⟨_, digitChar_mem_numberMarks d hd, cs, hchars⟩
  | negSucc n => exact ⟨'-', List.mem_cons_self, _, rfl⟩

/-- What begins like a number is no other value. -/
theorem readScalar_number : ∀ c ∈ numberMarks, readScalar (c :: cs) = readNumber (c :: cs) := by
  have hother : ∀ c ∈ numberMarks, c ≠ 'n' ∧ c ≠ 't' ∧ c ≠ 'f' ∧ c ≠ '\x22' := by
    simp [numberMarks]
  intro c hc
  obtain ⟨hnull, htrue, hfalse, hquote⟩ := hother c hc
  rw [readScalar]
  · exact fun _ h => hnull (List.cons.inj h).1
  · exact fun _ h => htrue (List.cons.inj h).1
  · exact fun _ h => hfalse (List.cons.inj h).1
  · exact fun _ h => hquote (List.cons.inj h).1

/-- The digits of a number spell it. -/
theorem numberOf_natChars (n : Nat) : numberOf ((natChars n).map digitValue) = n := by
  rw [numberOf, List.foldl_map]
  exact Nat.ofDigitChars_ten_toDigits

/-- All the digits of a number are taken. -/
theorem digits_natChars (n : Nat) (h : Delimited rest) :
    digits (natChars n ++ rest) = ((natChars n).map digitValue, rest) := by
  have hall : ∀ c ∈ natChars n, c.isDigit := fun _ => isDigit_of_mem_natChars
  have hrest := Prod.mk.inj h.digits
  rw [Reader.digits, List.takeWhile_append_of_pos hall, List.dropWhile_append_of_pos hall,
    List.map_append, hrest.1, hrest.2, List.append_nil]

theorem wholePart_natChars (n : Nat) (h : Delimited rest) :
    wholePart (natChars n ++ rest) = some ((natChars n).map digitValue, rest) := by
  rcases Nat.eq_zero_or_pos n with rfl | hpos
  · rfl
  · obtain ⟨d, cs, hchars, hd, hfirst⟩ := exists_natChars_eq_cons n
    have hzero : ∀ d < 10, 0 < d → Nat.digitChar d ≠ '0' := by decide
    have hdigits := digits_natChars n h
    rw [hchars] at hdigits ⊢
    rw [wholePart, hdigits]
    · rfl
    · exact fun _ heq => hzero d hd (hfirst hpos) (List.cons.inj heq).1

theorem readUnsigned_natChars (negative : Bool) (n : Nat) (h : Delimited rest) :
    readUnsigned negative (natChars n ++ rest) =
      (numberValue negative ((natChars n).map digitValue) none none).map (·, rest) := by
  simp only [readUnsigned, wholePart_natChars n h, h.fraction?, h.exponent?]

theorem numberValue_nonneg {ds : List Nat} (h : numberOf ds < Nat.pow 2 64) :
    numberValue false ds none none = some (.int (numberOf ds)) :=
  if_pos ⟨rfl, rfl, h⟩

theorem numberValue_neg {ds : List Nat} (hpos : 0 < numberOf ds)
    (h : numberOf ds ≤ Nat.pow 2 63) :
    numberValue true ds none none = some (.int (-(numberOf ds : Int))) :=
  if_pos ⟨rfl, rfl, hpos, h⟩

/-- **A written whole number of at most 64 bits is read back.** -/
theorem readNumber_intChars {n : Int} (hlow : -(Nat.pow 2 63 : Int) ≤ n)
    (hhigh : n < (Nat.pow 2 64 : Int)) (h : Delimited rest) :
    readNumber (intChars n ++ rest) = some (.int n, rest) := by
  cases n with
  | ofNat n =>
    have hspelt := numberOf_natChars n
    have hvalue := numberValue_nonneg (hspelt.symm ▸ Int.ofNat_lt.1 hhigh)
    have hread := readUnsigned_natChars false n h
    obtain ⟨d, cs, hchars, hd, -⟩ := exists_natChars_eq_cons n
    have hminus : ∀ d < 10, Nat.digitChar d ≠ '-' := by decide
    rw [hvalue, hspelt, hchars] at hread
    rw [intChars, hchars, readNumber, hread]
    · rfl
    · exact fun _ heq => hminus d hd (List.cons.inj heq).1
  | negSucc n =>
    have hspelt := numberOf_natChars (n + 1)
    have hvalue := numberValue_neg (hspelt.symm ▸ Nat.succ_pos n)
      (hspelt.symm ▸ (by omega : n + 1 ≤ Nat.pow 2 63))
    rw [intChars, List.cons_append, readNumber, readUnsigned_natChars true (n + 1) h, hvalue,
      hspelt]
    rfl

end DeclStyle.Json
