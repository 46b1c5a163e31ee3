import DeclStyle.Proofs.Json.Scalar

/-!
# Written values

A value whose numbers are whole is read back from its text if the reader goes deep enough, and is
refused otherwise.  Arrays and objects are written alike, as items parted by commas up to a closing
mark, so that one lemma on such sequences serves both.  Behind each item there is a comma or the
closing mark, at which no item goes on; and each takes a character, so that the reader never gets to
its bound on the number of items.

* `Json.Whole` — the values without other numbers than whole ones of at most 64 bits;
* `Json.writeSequence` — the written form of the items of an array or an object;
* `Json.readSequence_writeSequence` — a written sequence is read back if each of its items is;
* `Json.readValue_write`, `Json.parse?_render` — a written value is read back if it is not nested
  too deeply.
-/

namespace DeclStyle.Json

/-- A value whose numbers are whole and have at most 64 bits. -/
inductive Whole : Json → Prop where
  | null : Whole .null
  | bool (b : Bool) : Whole (.bool b)
  | int (n : Int) (hlow : -(Nat.pow 2 63 : Int) ≤ n) (hhigh : n < (Nat.pow 2 64 : Int)) :
    Whole (.int n)
  | str (s : String) : Whole (.str s)
  | arr (items : List Json) (h : ∀ v ∈ items, Whole v) : Whole (.arr items)
  | obj (fields : List (String × Json)) (h : ∀ f ∈ fields, Whole f.2) : Whole (.obj fields)

namespace Whole

attribute [simp] null bool str

@[simp] theorem arr_iff {items : List Json} : Whole (.arr items) ↔ ∀ v ∈ items, Whole v :=
  ⟨fun h => by cases h with | arr items h => exact h, .arr items⟩

@[simp] theorem obj_iff {fields : List (String × Json)} :
    Whole (.obj fields) ↔ ∀ f ∈ fields, Whole f.2 :=
  ⟨fun h => by cases h with | obj fields h => exact h, .obj fields⟩

end Whole

/-! ## Sequences -/

section Sequence

variable {α : Type} {item : Reader α} {written : α → List Char} {p : α → Prop} [DecidablePred p]
  {close : Char} {rest : List Char}

/-- The written form of what is behind the first item of a sequence. -/
def writeRest (written : α → List Char) (close : Char) : List α → List Char
  | [] => [close]
  | a :: as => ',' :: (written a ++ writeRest written close as)

/-- The written form of a sequence, behind its opening mark. -/
def writeSequence (written : α → List Char) (close : Char) : List α → List Char
  | [] => [close]
  | a :: as => written a ++ writeRest written close as

/-- An item is read back from its written form if it passes a test, and refused otherwise.  No
number goes on behind it. -/
def ReadsBackIf (p : α → Prop) [DecidablePred p] (item : Reader α) (written : α → List Char)
    (a : α) : Prop :=
  ∀ rest, Delimited rest → item (written a ++ rest) = if p a then some (a, rest) else none

/-- A text that begins neither with a blank nor with a given mark. -/
def Begins (mark : Char) (cs : List Char) : Prop :=
  ∃ c tl, cs = c :: tl ∧ isBlank c = false ∧ c ≠ mark

theorem skipBlanks_cons {c : Char} (h : isBlank c = false) (cs : List Char) :
    skipBlanks (c :: cs) = c :: cs := by
  rw [skipBlanks, List.dropWhile_cons, if_neg (by simp [h])]

theorem length_lt_length_writeRest (written : α → List Char) (close : Char) (as : List α) :
    as.length < (writeRest written close as).length := by
  induction as with
  | nil => exact Nat.one_pos
  | cons a as ih =>
    rw [writeRest, List.length_cons, List.length_cons, List.length_append]
    omega

theorem delimited_close (hclose : close = ']' ∨ close = '\x7d') (cs : List Char) :
    Delimited (close :: cs) := by
  rcases hclose with rfl | rfl
  · exact .bracket cs
  · exact .brace cs

/-- Another item is read behind a comma. -/
theorem readItems_comma {a : α} {cs : List Char} (h : item cs = some (a, ',' :: rest))
    (bound : Nat) :
    readItems item close (bound + 1) cs =
      (readItems item close bound rest).map fun (as, end_) => (a :: as, end_) := by
  rw [readItems, h]
  rfl

/-- The closing mark ends the items. -/
theorem readItems_close (hclose : close = ']' ∨ close = '\x7d') {a : α} {cs : List Char}
    (h : item cs = some (a, close :: rest)) (bound : Nat) :
    readItems item close (bound + 1) cs = some ([a], rest) := by
  rw [readItems, h]
  rcases hclose with rfl | rfl <;> rfl

/-- An item that is refused ends the reading. -/
theorem readItems_refused {cs : List Char} (h : item cs = none) (bound : Nat) :
    readItems item close (bound + 1) cs = none := by
  rw [readItems, h]

theorem readItems_writeRest (hclose : close = ']' ∨ close = '\x7d') {a : α} {as : List α}
    (h : ∀ b ∈ a :: as, ReadsBackIf p item written b) (rest : List Char) {bound : Nat}
    (hbound : as.length < bound) :
    readItems item close bound (written a ++ (writeRest written close as ++ rest)) =
      if ∀ b ∈ a :: as, p b then some (a :: as, rest) else none := by
  induction as generalizing a bound with
  | nil =>
    obtain ⟨bound, rfl⟩ := Nat.exists_eq_succ_of_ne_zero (Nat.ne_zero_of_lt hbound)
    have hfirst := h a List.mem_cons_self _ (delimited_close hclose rest)
    by_cases ha : p a
    · rw [if_pos ha] at hfirst
      exact (readItems_close hclose hfirst bound).trans (by simp [ha])
    · rw [if_neg ha] at hfirst
      exact (readItems_refused hfirst bound).trans (by simp [ha])
  | cons b as ih =>
    obtain ⟨bound, rfl⟩ := Nat.exists_eq_succ_of_ne_zero (Nat.ne_zero_of_lt hbound)
    have hfirst := h a List.mem_cons_self _
      (.comma (written b ++ writeRest written close as ++ rest))
    by_cases ha : p a
    · have hitems := ih (fun c hc => h c (List.mem_cons_of_mem _ hc))
        (Nat.lt_of_succ_lt_succ hbound)
      rw [← List.append_assoc] at hitems
      rw [if_pos ha] at hfirst
      refine (readItems_comma hfirst bound).trans ?_
      rw [hitems]
      by_cases hrest : ∀ c ∈ b :: as, p c
      · rw [if_pos hrest, if_pos (List.forall_mem_cons.2 ⟨ha, hrest⟩)]
        rfl
      · rw [if_neg hrest, if_neg fun hall => hrest (List.forall_mem_cons.1 hall).2]
        rfl
    · rw [if_neg ha] at hfirst
      rw [if_neg fun hall => ha (hall a List.mem_cons_self)]
      exact readItems_refused hfirst bound

/-- **A written sequence is read back** if each of its items is. -/
theorem readSequence_writeSequence (hclose : close = ']' ∨ close = '\x7d') {as : List α}
    (h : ∀ a ∈ as, ReadsBackIf p item written a) (hbegins : ∀ a ∈ as, Begins close (written a))
    (rest : List Char) :
    readSequence item close (writeSequence written close as ++ rest) =
      if ∀ a ∈ as, p a then some (as, rest) else none := by
  cases as with
  | nil =>
    have hskip := (delimited_close hclose rest).skipBlanks
    simp [readSequence, writeSequence, hskip]
  | cons a as =>
    obtain ⟨c, tl, hwritten, hblank, hmark⟩ := hbegins a List.mem_cons_self
    have hbound : as.length < (tl ++ (writeRest written close as ++ rest)).length + 1 := by
      have hlength := length_lt_length_writeRest written close as
      simp only [List.length_append]
      omega
    have hitems := readItems_writeRest hclose h rest hbound
    rw [hwritten, List.cons_append] at hitems
    rw [readSequence, writeSequence, hwritten, List.append_assoc, List.cons_append,
      skipBlanks_cons hblank]
    simp only [hmark, if_false]
    exact hitems

end Sequence

/-! ## Values

### The written form -/

/-- The written form of a field. -/
def writeField (field : String × Json) : List Char := quoted field.1 ++ ':' :: write field.2

theorem write_arr (items : List Json) :
    write (.arr items) = '[' :: writeSequence write ']' items := by
  have hrest : ∀ vs : List Json, writeItems vs = writeRest write ']' vs := by
    intro vs
    induction vs with
    | nil => rfl
    | cons v vs ih => rw [writeItems, ih, writeRest]
  cases items with
  | nil => rfl
  | cons v vs => rw [write, hrest, writeSequence]

theorem write_obj (fields : List (String × Json)) :
    write (.obj fields) = '\x7b' :: writeSequence writeField '\x7d' fields := by
  have hrest : ∀ fs : List (String × Json), writeFields fs = writeRest writeField '\x7d' fs := by
    intro fs
    induction fs with
    | nil => rfl
    | cons f fs ih =>
      rw [writeFields, ih, writeRest, writeField, List.append_assoc, List.cons_append]
  cases fields with
  | nil => rfl
  | cons f fs => rw [write, hrest, writeSequence, writeField, List.append_assoc, List.cons_append]

/-- No value begins with a blank or with the mark that closes an array. -/
theorem begins_write (v : Json) : Begins ']' (write v) := by
  have hnumber : ∀ n : Int, Begins ']' (intChars n) := by
    intro n
    have hmarks : ∀ c ∈ numberMarks, isBlank c = false ∧ c ≠ ']' := by
      simp [numberMarks, isBlank]
    obtain ⟨c, hc, cs, hchars⟩ := exists_intChars_eq_cons n
    exact ⟨c, cs, hchars, hmarks c hc⟩
  cases v with
  | null => exact ⟨_, _, rfl, rfl, by decide⟩
  | bool b => cases b <;> exact ⟨_, _, rfl, rfl, by decide⟩
  | int n => exact hnumber n
  | real significand exponent =>
    obtain ⟨c, tl, hchars, hc⟩ := hnumber significand
    exact ⟨c, _, by rw [write, hchars]; rfl, hc⟩
  | str s => exact ⟨_, _, rfl, rfl, by decide⟩
  | arr items => exact ⟨_, _, write_arr items, rfl, by decide⟩
  | obj fields => exact ⟨_, _, write_obj fields, rfl, by decide⟩

theorem begins_writeField (f : String × Json) : Begins '\x7d' (writeField f) :=
  ⟨_, _, rfl, rfl, by decide⟩

/-! ### Depth -/

theorem depthOfItems_le_iff {items : List Json} {levels : Nat} :
    depthOfItems items ≤ levels ↔ ∀ v ∈ items, v.depth ≤ levels := by
  induction items with
  | nil => simp [depthOfItems]
  | cons v items ih => rw [depthOfItems, Nat.max_le, ih, List.forall_mem_cons]

theorem depthOfFields_le_iff {fields : List (String × Json)} {levels : Nat} :
    depthOfFields fields ≤ levels ↔ ∀ f ∈ fields, f.2.depth ≤ levels := by
  induction fields with
  | nil => simp [depthOfFields]
  | cons f fields ih => rw [depthOfFields, Nat.max_le, ih, List.forall_mem_cons]

/-- An array is nested less deeply than a bound if its items are nested less deeply than the next
lower one. -/
theorem depth_arr_le_iff {items : List Json} {levels : Nat} :
    (arr items).depth ≤ levels + 1 ↔ ∀ v ∈ items, v.depth ≤ levels := by
  rw [depth, Nat.succ_le_succ_iff, depthOfItems_le_iff]

theorem depth_obj_le_iff {fields : List (String × Json)} {levels : Nat} :
    (obj fields).depth ≤ levels + 1 ↔ ∀ f ∈ fields, f.2.depth ≤ levels := by
  rw [depth, Nat.succ_le_succ_iff, depthOfFields_le_iff]

theorem depth_lt_of_mem_arr {v : Json} {items : List Json} (h : v ∈ items) :
    v.depth < (arr items).depth :=
  Nat.lt_succ_of_le (depthOfItems_le_iff.1 (Nat.le_refl _) v h)

theorem depth_lt_of_mem_obj {f : String × Json} {fields : List (String × Json)}
    (h : f ∈ fields) : f.2.depth < (obj fields).depth :=
  Nat.lt_succ_of_le (depthOfFields_le_iff.1 (Nat.le_refl _) f h)

/-! ### Reading a written value -/

/-- A field is read back if its value is. -/
theorem readsBackIf_field (p : Json → Prop) [DecidablePred p] {value : Reader Json}
    {f : String × Json} (h : ReadsBackIf p value write f.2) :
    ReadsBackIf (fun f => p f.2) (readField value) writeField f := by
  intro rest hrest
  have htext : writeField f ++ rest =
      '\x22' :: (f.1.toList.flatMap escape ++ '\x22' :: ':' :: (write f.2 ++ rest)) := by
    simp [writeField, quoted]
  rw [htext, readField, skipBlanks_cons rfl]
  simp only [readString_escape, skipBlanks_cons (by decide : isBlank ':' = false)]
  rw [h rest hrest]
  split <;> rfl

/-- A value that begins with no blank and no opening mark is neither an array nor an object. -/
theorem readValue_scalar {c : Char} (h : isBlank c = false ∧ c ≠ '[' ∧ c ≠ '\x7b') (levels : Nat)
    (cs : List Char) : readValue levels (c :: cs) = readScalar (c :: cs) := by
  obtain ⟨hblank, harr, hobj⟩ := h
  cases levels with
  | zero => rw [readValue, skipBlanks_cons hblank]
  | succ levels =>
    rw [readValue, skipBlanks_cons hblank]
    split
    · rename_i heq
      exact absurd (List.cons.inj heq).1 harr
    · rename_i heq
      exact absurd (List.cons.inj heq).1 hobj
    · rfl

/-- **A written value is read back** if it is not nested too deeply, and refused otherwise. -/
theorem readValue_write {v : Json} (hv : v.Whole) (levels : Nat) {rest : List Char}
    (hrest : Delimited rest) :
    readValue levels (write v ++ rest) = if v.depth ≤ levels then some (v, rest) else none := by
  induction hv generalizing levels rest with
  | null => exact readValue_scalar (by decide) levels _
  | bool b => cases b <;> exact readValue_scalar (by decide) levels _
  | int n hlow hhigh =>
    have hmarks : ∀ c ∈ numberMarks, isBlank c = false ∧ c ≠ '[' ∧ c ≠ '\x7b' := by
      simp [numberMarks, isBlank]
    have hread := readNumber_intChars hlow hhigh hrest
    obtain ⟨c, hc, cs, hchars⟩ := exists_intChars_eq_cons n
    rw [hchars, List.cons_append] at hread
    rw [write, hchars, List.cons_append, readValue_scalar (hmarks c hc), readScalar_number c hc,
      hread]
    rfl
  | str s =>
    rw [write, quoted, List.cons_append, List.append_assoc, readValue_scalar (by decide),
      readScalar, List.singleton_append, readString_escape]
    rfl
  | arr items h ih =>
    rw [write_arr, List.cons_append]
    cases levels with
    | zero => rfl
    | succ levels =>
      have hitem : ∀ v ∈ items, ReadsBackIf (·.depth ≤ levels) (readValue levels) write v :=
        fun v hv _ hrest => ih v hv levels hrest
      have hitems := readSequence_writeSequence (.inl rfl) hitem (fun v _ => begins_write v) rest
      rw [readValue, skipBlanks_cons rfl]
      simp only [hitems, depth_arr_le_iff]
      split <;> rfl
  | obj fields h ih =>
    rw [write_obj, List.cons_append]
    cases levels with
    | zero => rfl
    | succ levels =>
      have hfield : ∀ f ∈ fields, ReadsBackIf (fun f => f.2.depth ≤ levels)
          (readField (readValue levels)) writeField f :=
        fun f hf => readsBackIf_field (·.depth ≤ levels) fun _ hrest =>
          ih f hf levels hrest
      have hfields := readSequence_writeSequence (.inr rfl) hfield
        (fun f _ => begins_writeField f) rest
      rw [readValue, skipBlanks_cons rfl]
      simp only [hfields, depth_obj_le_iff]
      split <;> rfl

/-- **The text of a value is read back** if it is not nested too deeply, and refused otherwise. -/
theorem parse?_render {v : Json} (hv : v.Whole) (levels : Nat) :
    parse? levels v.render = if v.depth ≤ levels then some v else none := by
  have hread := readValue_write hv levels .nil
  rw [List.append_nil] at hread
  rw [parse?, render, String.toList_ofList, hread]
  by_cases h : v.depth ≤ levels
  · rw [if_pos h, if_pos h]
    rfl
  · rw [if_neg h, if_neg h]

end DeclStyle.Json
