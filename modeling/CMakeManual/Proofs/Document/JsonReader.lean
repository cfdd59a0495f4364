import CMakeManual.Proofs.Document.JsonGrammar

/-! A reader of JSON texts. It reads every text that the grammar derives, as the value that the
grammar gives it; so no text stands for two values. -/
namespace CMakeManual.Document.Json
open Text

/-- What comes next is none of these characters. -/
def Avoids (p : Char → Bool) (cs : List Char) : Prop := ∀ c ∈ cs.head?, p c = false

theorem avoids_cons {p : Char → Bool} {c : Char} (h : p c = false) (cs : List Char) :
    Avoids p (c :: cs) := by
  simp [Avoids, h]

section Spans
variable {p : Char → Bool} {front rest : List Char}

theorem dropWhile_span (hfront : ∀ c ∈ front, p c = true) (hrest : Avoids p rest) :
    (front ++ rest).dropWhile p = rest := by
  rw [List.dropWhile_append_of_pos hfront]
  cases rest with
  | nil => rfl
  | cons c cs => exact List.dropWhile_cons_of_neg (by simp [hrest c rfl])

theorem takeWhile_span (hfront : ∀ c ∈ front, p c = true) (hrest : Avoids p rest) :
    (front ++ rest).takeWhile p = front := by
  rw [List.takeWhile_append_of_pos hfront]
  cases rest with
  | nil => simp
  | cons c cs => rw [List.takeWhile_cons_of_neg (by simp [hrest c rfl]), List.append_nil]

/-- What avoids a span avoids it behind another span of characters that do. -/
theorem Avoids.append (hfront : ∀ c ∈ front, p c = false) (hrest : Avoids p rest) :
    Avoids p (front ++ rest) := by
  cases front with
  | nil => exact hrest
  | cons c cs => exact avoids_cons (hfront c List.mem_cons_self) _

end Spans

/-- Takes a value from the front of a text. -/
abbrev Reader (α : Type) := List Char → Option (α × List Char)

def skipSpace (cs : List Char) : List Char := cs.dropWhile isSpace

/-- The characters up to a closing quote. -/
def readCharacters : Reader (List Char)
  | [] => none
  | '\x22' :: r => some ([], r)
  | '\\' :: 'u' :: d₁ :: d₂ :: d₃ :: d₄ :: r =>
      (hexNumber? [d₁, d₂, d₃, d₄]).bind fun n =>
        if n.isValidChar then (readCharacters r).map (Prod.map (Char.ofNat n :: ·) id) else none
  | '\\' :: l :: r =>
      (letterEscapes.lookup l).bind fun c => (readCharacters r).map (Prod.map (c :: ·) id)
  | c :: r =>
      if 0x20 ≤ c.toNat ∧ c ≠ '\\' then (readCharacters r).map (Prod.map (c :: ·) id) else none

def readQuoted : Reader String
  | '\x22' :: r => (readCharacters r).map (Prod.map String.ofList id)
  | _ => none

def readNumber : Reader Json := fun cs =>
  if cs.takeWhile Char.isDigit = [] then none
  else some (.number (Nat.ofDigitChars 10 (cs.takeWhile Char.isDigit) 0),
    cs.dropWhile Char.isDigit)

def readElement (value : Reader Json) : Reader Json := fun cs =>
  (value (skipSpace cs)).map (Prod.map id skipSpace)

def readMember (value : Reader Json) : Reader (String × Json) := fun cs =>
  (readQuoted (skipSpace cs)).bind fun key =>
    match skipSpace key.2 with
    | ':' :: r => (readElement value r).map (Prod.map (Prod.mk key.1) id)
    | _ => none

/-- What commas separate, up to a closing bracket. -/
def readSeparated {α : Type} (one : Reader α) (close : Char) : Nat → Reader (List α)
  | 0, _ => none
  | fuel + 1, cs =>
      (one cs).bind fun first =>
        match first.2 with
        | [] => none
        | c :: r =>
            if c = ',' then (readSeparated one close fuel r).map (Prod.map (first.1 :: ·) id)
            else if c = close then some ([first.1], r)
            else none

def readBracketed {α : Type} (one : Reader α) (close : Char) (fuel : Nat) : Reader (List α) :=
  fun cs =>
    if (skipSpace cs).head? = some close then some ([], (skipSpace cs).tail)
    else readSeparated one close fuel cs

/-- A value; the fuel is the length of the text at most. -/
def readValue : Nat → Reader Json
  | 0, _ => none
  | fuel + 1, cs =>
      match cs with
      | '\x22' :: _ => (readQuoted cs).map (Prod.map Json.text id)
      | '[' :: r =>
          (readBracketed (readElement (readValue fuel)) ']' fuel r).map (Prod.map Json.array id)
      | '\x7b' :: r =>
          (readBracketed (readMember (readValue fuel)) '\x7d' fuel r).map (Prod.map Json.object id)
      | 't' :: 'r' :: 'u' :: 'e' :: r => some (.bool true, r)
      | 'f' :: 'a' :: 'l' :: 's' :: 'e' :: r => some (.bool false, r)
      | _ => readNumber cs

/-- The value of a text. -/
def read (text : String) : Option Json :=
  (readElement (readValue text.length) text.toList).bind fun found =>
    if found.2 = [] then some found.1 else none

theorem readCharacters_character {c : Char} {cs : List Char} (h : Character c cs)
    (rest : List Char) :
    readCharacters (cs ++ rest) = (readCharacters rest).map (Prod.map (c :: ·) id) := by
  cases h with
  | plain hcontrol hquote hescape => simp [readCharacters, hcontrol, hescape]
  | @letter l hletter =>
    have hcode : l ≠ 'u' := by
      rintro rfl
      have hnone : letterEscapes.lookup 'u' = none := by decide
      simp [hnone] at hletter
    simp [readCharacters, hletter, hcode]
  | code hnumber =>
    have hvalid : c.toNat.isValidChar := c.valid
    simp [readCharacters, hnumber, hvalid]

theorem readCharacters_characters {s cs : List Char} (h : Characters s cs) (rest : List Char) :
    readCharacters (cs ++ '\x22' :: rest) = some (s, rest) := by
  induction h with
  | nil => simp [readCharacters]
  | cons hfirst hrest ih => simp [readCharacters_character hfirst, ih]

theorem readQuoted_quoted {s : String} {cs : List Char} (h : Quoted s cs) (rest : List Char) :
    readQuoted (cs ++ rest) = some (s, rest) := by
  obtain ⟨hcharacters⟩ := h
  simp [readQuoted, readCharacters_characters hcharacters]

theorem readNumber_digits {n : Nat} {cs rest : List Char} (h : Digits n cs)
    (hrest : Avoids Char.isDigit rest) : readNumber (cs ++ rest) = some (.number n, rest) := by
  unfold readNumber
  rw [takeWhile_span h.digit hrest, dropWhile_span h.digit hrest, if_neg h.some_digit, h.value]

section Brackets
variable {α : Type} {one : Reader α} {close : Char} {fuel : Nat} {cs ds rest : List Char} {x : α}
  {xs : List α}

theorem readSeparated_last (hone : one cs = some (x, close :: rest)) (hclose : close ≠ ',') :
    readSeparated one close (fuel + 1) cs = some ([x], rest) := by
  simp [readSeparated, hone, hclose]

theorem readSeparated_more (hone : one cs = some (x, ',' :: ds))
    (hrest : readSeparated one close fuel ds = some (xs, rest)) :
    readSeparated one close (fuel + 1) cs = some (x :: xs, rest) := by
  simp [readSeparated, hone, hrest]

theorem readBracketed_empty (hblank : Blank cs) (hclose : isSpace close = false) :
    readBracketed one close fuel (cs ++ close :: rest) = some ([], rest) := by
  have hskip : skipSpace (cs ++ close :: rest) = close :: rest :=
    dropWhile_span hblank (avoids_cons hclose rest)
  simp [readBracketed, hskip]

end Brackets

theorem isSpace_of_isDigit {c : Char} (h : c.isDigit = true) : isSpace c = false := by
  rw [Bool.eq_false_iff]
  intro hspace
  simp only [isSpace, Bool.or_eq_true, beq_iff_eq] at hspace
  rcases hspace with ((rfl | rfl) | rfl) | rfl <;> exact absurd h (by decide)

theorem isDigit_of_isSpace {c : Char} (h : isSpace c = true) : c.isDigit = false := by
  rw [Bool.eq_false_iff]
  intro hdigit
  simp [isSpace_of_isDigit hdigit] at h

/-- The first character of a value is neither space nor a closing bracket. -/
theorem Value.head {j : Json} {cs : List Char} (h : Value j cs) :
    ∃ c t, cs = c :: t ∧ isSpace c = false ∧ c ≠ ']' := by
  cases h with
  | @number n cs hdigits =>
    obtain ⟨c, t, rfl⟩ := List.exists_cons_of_ne_nil hdigits.some_digit
    have hdigit := hdigits.digit c List.mem_cons_self
    refine ⟨c, t, rfl, isSpace_of_isDigit hdigit, ?_⟩
    rintro rfl
    exact absurd hdigit (by decide)
  | yes => exact ⟨'t', _, rfl, rfl, by decide⟩
  | no => exact ⟨'f', _, rfl, rfl, by decide⟩
  | text hquoted =>
    obtain ⟨hcharacters⟩ := hquoted
    exact ⟨'\x22', _, rfl, rfl, by decide⟩
  | emptyArray hblank => exact ⟨'[', _, rfl, rfl, by decide⟩
  | array hitems => exact ⟨'[', _, rfl, rfl, by decide⟩
  | emptyObject hblank => exact ⟨'\x7b', _, rfl, rfl, by decide⟩
  | object hfields => exact ⟨'\x7b', _, rfl, rfl, by decide⟩

theorem readValue_number {n fuel : Nat} {cs rest : List Char} (h : Digits n cs)
    (hrest : Avoids Char.isDigit rest) :
    readValue (fuel + 1) (cs ++ rest) = some (.number n, rest) := by
  have hnumber := readNumber_digits h hrest
  -- A digit is none of the characters that start another kind of value.
  obtain ⟨c, t, rfl⟩ := List.exists_cons_of_ne_nil h.some_digit
  have hdigit := h.digit c List.mem_cons_self
  have hother {d : Char} {r : List Char} (hd : d.isDigit = false) : c :: t ++ rest ≠ d :: r := by
    intro heq
    rw [(List.cons.inj heq).1, hd] at hdigit
    simp at hdigit
  rw [readValue.eq_def]
  dsimp only
  split
  next heq => exact absurd heq (hother rfl)
  next heq => exact absurd heq (hother rfl)
  next heq => exact absurd heq (hother rfl)
  next heq => exact absurd heq (hother rfl)
  next heq => exact absurd heq (hother rfl)
  next => exact hnumber

theorem skipSpace_front {front t : List Char} {c : Char} (hfront : Blank front)
    (hc : isSpace c = false) : skipSpace (front ++ c :: t) = c :: t :=
  dropWhile_span hfront (avoids_cons hc t)

/-- An element is not taken for the end of its array. -/
theorem Element.skipSpace_head {j : Json} {cs : List Char} (h : Element j cs) (rest : List Char) :
    (skipSpace (cs ++ rest)).head? ≠ some ']' := by
  obtain ⟨hfront, hvalue, -⟩ := h
  obtain ⟨c, t, rfl, hspace, hclose⟩ := hvalue.head
  rw [List.append_assoc, List.append_assoc, List.cons_append, skipSpace_front hfront hspace]
  simpa using hclose

theorem Member.skipSpace_head {field : String × Json} {cs : List Char} (h : Member field cs)
    (rest : List Char) : (skipSpace (cs ++ rest)).head? ≠ some '\x7d' := by
  obtain ⟨hfront, ⟨-⟩, -, -⟩ := h
  rw [List.append_assoc, List.append_assoc, List.append_assoc, List.cons_append,
    skipSpace_front hfront rfl]
  simp

theorem Elements.skipSpace_head {items : List Json} {cs : List Char} (h : Elements items cs)
    (rest : List Char) : (skipSpace (cs ++ rest)).head? ≠ some ']' := by
  cases h with
  | one hitem => exact hitem.skipSpace_head rest
  | more hitem hitems =>
    rw [List.append_assoc]
    exact hitem.skipSpace_head _

theorem Members.skipSpace_head {fields : List (String × Json)} {cs : List Char}
    (h : Members fields cs) (rest : List Char) :
    (skipSpace (cs ++ rest)).head? ≠ some '\x7d' := by
  cases h with
  | one hfield => exact hfield.skipSpace_head rest
  | more hfield hfields =>
    rw [List.append_assoc]
    exact hfield.skipSpace_head _

/-- What follows an element or member: nothing, or what is neither space nor a digit. -/
def Ends (rest : List Char) : Prop := Avoids isSpace rest ∧ Avoids Char.isDigit rest

theorem ends_cons {c : Char} (hspace : isSpace c = false) (hdigit : c.isDigit = false)
    (cs : List Char) : Ends (c :: cs) :=
  ⟨avoids_cons hspace cs, avoids_cons hdigit cs⟩

theorem readValue_array {fuel : Nat} {cs rest : List Char} {items : List Json}
    (h : readBracketed (readElement (readValue fuel)) ']' fuel (cs ++ ']' :: rest) =
      some (items, rest)) :
    readValue (fuel + 1) ('[' :: (cs ++ [']']) ++ rest) = some (.array items, rest) := by
  simp [readValue, h]

theorem readValue_object {fuel : Nat} {cs rest : List Char} {fields : List (String × Json)}
    (h : readBracketed (readMember (readValue fuel)) '\x7d' fuel (cs ++ '\x7d' :: rest) =
      some (fields, rest)) :
    readValue (fuel + 1) ('\x7b' :: (cs ++ ['\x7d']) ++ rest) = some (.object fields, rest) := by
  simp [readValue, h]

theorem readValue_text {fuel : Nat} {s : String} {cs : List Char} (h : Quoted s cs)
    (rest : List Char) : readValue (fuel + 1) (cs ++ rest) = some (.text s, rest) := by
  have hread := readQuoted_quoted h rest
  obtain ⟨hcharacters⟩ := h
  rw [List.cons_append] at hread ⊢
  simp only [readValue, hread, Option.map_some, Prod.map_apply, id_eq]

theorem Element.length_pos {j : Json} {cs : List Char} (h : Element j cs) : 0 < cs.length := by
  obtain ⟨-, hvalue, -⟩ := h
  obtain ⟨c, t, rfl, -⟩ := hvalue.head
  simp only [List.length_append, List.length_cons]
  omega

theorem Member.length_pos {field : String × Json} {cs : List Char} (h : Member field cs) :
    0 < cs.length := by
  obtain ⟨-, -, -, -⟩ := h
  simp only [List.length_append, List.length_cons]
  omega

/-- An element is read if its value is. -/
theorem readElement_element {fuel : Nat} {j : Json} {front cs back rest : List Char}
    (hfront : Blank front) (hvalue : Value j cs) (hback : Blank back) (hrest : Avoids isSpace rest)
    (hread : readValue fuel (cs ++ (back ++ rest)) = some (j, back ++ rest)) :
    readElement (readValue fuel) (front ++ cs ++ back ++ rest) = some (j, rest) := by
  have hstart : skipSpace (front ++ (cs ++ (back ++ rest))) = cs ++ (back ++ rest) := by
    obtain ⟨c, t, rfl, hspace, -⟩ := hvalue.head
    exact skipSpace_front hfront hspace
  have hend : skipSpace (back ++ rest) = rest := dropWhile_span hback hrest
  rw [List.append_assoc, List.append_assoc, readElement, hstart, hread, Option.map_some,
    Prod.map_apply, id_eq, hend]

/-- A member is read if its value is. -/
theorem readMember_member {value : Reader Json} {key : String} {j : Json}
    {front ks back cs rest : List Char} (hfront : Blank front) (hkey : Quoted key ks)
    (hback : Blank back) (hread : readElement value (cs ++ rest) = some (j, rest)) :
    readMember value (front ++ ks ++ back ++ ':' :: cs ++ rest) = some ((key, j), rest) := by
  have hquoted := readQuoted_quoted hkey (back ++ ':' :: (cs ++ rest))
  have hstart : skipSpace (front ++ (ks ++ (back ++ ':' :: (cs ++ rest)))) =
      ks ++ (back ++ ':' :: (cs ++ rest)) := by
    obtain ⟨-⟩ := hkey
    exact skipSpace_front hfront rfl
  have hcolon : skipSpace (back ++ ':' :: (cs ++ rest)) = ':' :: (cs ++ rest) :=
    skipSpace_front hback rfl
  rw [List.append_assoc, List.append_assoc, List.append_assoc, List.cons_append, readMember, hstart,
    hquoted, Option.bind_some]
  simp only [hcolon, hread, Option.map_some, Prod.map_apply, id_eq]

mutual

/-- Values are read as what they stand for, if no digit follows. -/
theorem Value.read_eq {j : Json} {cs : List Char} :
    Value j cs → ∀ {fuel : Nat} {rest : List Char}, cs.length ≤ fuel →
      Avoids Char.isDigit rest → readValue fuel (cs ++ rest) = some (j, rest)
  | h, 0, _, hfuel, _ => by
    obtain ⟨c, t, rfl, -⟩ := h.head
    simp at hfuel
  | .number hdigits, fuel + 1, rest, _, hrest => readValue_number hdigits hrest
  | .yes, fuel + 1, rest, _, _ => rfl
  | .no, fuel + 1, rest, _, _ => rfl
  | .text hquoted, fuel + 1, rest, _, _ => readValue_text hquoted rest
  | .emptyArray hblank, fuel + 1, rest, _, _ => by
    apply readValue_array
    exact readBracketed_empty hblank rfl
  | .array hitems, fuel + 1, rest, hfuel, _ => by
    apply readValue_array
    rw [readBracketed, if_neg (hitems.skipSpace_head _)]
    -- The brackets are two characters and cost one unit of fuel.
    simp only [List.length_cons, List.length_append] at hfuel
    exact hitems.read_eq (by omega) (by omega)
  | .emptyObject hblank, fuel + 1, rest, _, _ => by
    apply readValue_object
    exact readBracketed_empty hblank rfl
  | .object hfields, fuel + 1, rest, hfuel, _ => by
    apply readValue_object
    rw [readBracketed, if_neg (hfields.skipSpace_head _)]
    simp only [List.length_cons, List.length_append] at hfuel
    exact hfields.read_eq (by omega) (by omega)

theorem Element.read_eq {j : Json} {cs : List Char} :
    Element j cs → ∀ {fuel : Nat} {rest : List Char}, cs.length ≤ fuel → Ends rest →
      readElement (readValue fuel) (cs ++ rest) = some (j, rest)
  | .mk hfront hvalue hback, fuel, rest, hfuel, hrest => by
    simp only [List.length_append] at hfuel
    -- Space behind a number ends it as well as what follows the space.
    have hdigit := hrest.2.append fun c hc => isDigit_of_isSpace (hback c hc)
    exact readElement_element hfront hvalue hback hrest.1 (hvalue.read_eq (by omega) hdigit)

/-- Elements are read up to the closing bracket. -/
theorem Elements.read_eq {items : List Json} {cs : List Char} :
    Elements items cs → ∀ {fuel width : Nat} {rest : List Char}, cs.length ≤ fuel →
      cs.length ≤ width →
      readSeparated (readElement (readValue fuel)) ']' width (cs ++ ']' :: rest) =
        some (items, rest)
  | .one hitem, _, 0, _, _, hwidth => absurd hitem.length_pos (Nat.not_lt.mpr hwidth)
  | .more hitem _, _, 0, _, _, hwidth => by simp at hwidth
  | .one hitem, fuel, width + 1, rest, hfuel, _ =>
    readSeparated_last (hitem.read_eq hfuel (ends_cons rfl rfl rest)) (by decide)
  | .more hitem hitems, fuel, width + 1, rest, hfuel, hwidth => by
    simp only [List.length_append, List.length_cons] at hfuel hwidth
    rw [List.append_assoc, List.cons_append]
    exact readSeparated_more (hitem.read_eq (by omega) (ends_cons rfl rfl _))
      (hitems.read_eq (by omega) (by omega))

theorem Member.read_eq {field : String × Json} {cs : List Char} :
    Member field cs → ∀ {fuel : Nat} {rest : List Char}, cs.length ≤ fuel → Ends rest →
      readMember (readValue fuel) (cs ++ rest) = some (field, rest)
  | .mk hfront hkey hback hvalue, fuel, rest, hfuel, hrest => by
    simp only [List.length_append, List.length_cons] at hfuel
    exact readMember_member hfront hkey hback (hvalue.read_eq (by omega) hrest)

/-- Members are read up to the closing brace. -/
theorem Members.read_eq {fields : List (String × Json)} {cs : List Char} :
    Members fields cs → ∀ {fuel width : Nat} {rest : List Char}, cs.length ≤ fuel →
      cs.length ≤ width →
      readSeparated (readMember (readValue fuel)) '\x7d' width (cs ++ '\x7d' :: rest) =
        some (fields, rest)
  | .one hfield, _, 0, _, _, hwidth => absurd hfield.length_pos (Nat.not_lt.mpr hwidth)
  | .more hfield _, _, 0, _, _, hwidth => by simp at hwidth
  | .one hfield, fuel, width + 1, rest, hfuel, _ =>
    readSeparated_last (hfield.read_eq hfuel (ends_cons rfl rfl rest)) (by decide)
  | .more hfield hfields, fuel, width + 1, rest, hfuel, hwidth => by
    simp only [List.length_append, List.length_cons] at hfuel hwidth
    rw [List.append_assoc, List.cons_append]
    exact readSeparated_more (hfield.read_eq (by omega) (ends_cons rfl rfl _))
      (hfields.read_eq (by omega) (by omega))

end

/-- Every text that the grammar derives is read, and as the value that the grammar gives it. -/
theorem read_of_isText {j : Json} {text : String} (h : IsText j text) : read text = some j := by
  have hends : Ends [] := by simp [Ends, Avoids]
  have hread := Element.read_eq h (Nat.le_of_eq String.length_toList) hends
  rw [List.append_nil] at hread
  simp [read, hread]

/-- No text stands for two values. -/
theorem IsText.unique {j k : Json} {text : String} (hj : IsText j text) (hk : IsText k text) :
    j = k :=
  Option.some.inj ((read_of_isText hj).symm.trans (read_of_isText hk))

end CMakeManual.Document.Json
