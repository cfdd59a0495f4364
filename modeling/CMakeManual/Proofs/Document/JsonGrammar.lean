import CMakeManual.Document.Json
import Mathlib.Tactic.SplitIfs

/-! The JSON grammar, production by production, for the values that occur here: there is no null,
numbers are whole and without sign, and no character is escaped as a pair of codes. Each production
says which value its text stands for. What is printed for a value is derived as that value. -/
namespace CMakeManual.Document.Json
open Text

/-- What a letter stands for behind a backslash. -/
def letterEscapes : List (Char × Char) :=
  [('\x22', '\x22'), ('\\', '\\'), ('/', '/'), ('b', '\x08'), ('f', '\x0c'), ('n', '\n'),
    ('r', '\r'), ('t', '\t')]

/-- The value of a hexadecimal digit in either letter case. -/
def hexDigit? (c : Char) : Option Nat := "0123456789abcdef".toList.idxOf? c.toLower

def hexNumber? (digits : List Char) : Option Nat :=
  digits.foldlM (fun n d => (hexDigit? d).map (16 * n + ·)) 0

/-- The spellings of a character in a text. -/
inductive Character (c : Char) : List Char → Prop
  | plain (hcontrol : 0x20 ≤ c.toNat) (hquote : c ≠ '\x22') (hescape : c ≠ '\\') : Character c [c]
  | letter {l : Char} (hletter : letterEscapes.lookup l = some c) : Character c ['\\', l]
  | code {d₁ d₂ d₃ d₄ : Char} (hnumber : hexNumber? [d₁, d₂, d₃, d₄] = some c.toNat) :
      Character c ['\\', 'u', d₁, d₂, d₃, d₄]

inductive Characters : List Char → List Char → Prop
  | nil : Characters [] []
  | cons {c : Char} {s cs t : List Char} (hfirst : Character c cs) (hrest : Characters s t) :
      Characters (c :: s) (cs ++ t)

inductive Quoted : String → List Char → Prop
  | mk {s : String} {cs : List Char} (hcharacters : Characters s.toList cs) :
      Quoted s ('\x22' :: (cs ++ ['\x22']))

theorem hexDigit?_digitChar : ∀ d < 16, hexDigit? d.digitChar = some d := by decide

/-- Every character is printed in one of its spellings. -/
theorem character_escapedChar (c : Char) : Character c (escapedChar c) := by
  unfold escapedChar
  split_ifs with hself hback htab hline hpage hreturn hcontrol
  · simp only [Bool.or_eq_true, decide_eq_true_eq] at hself
    rcases hself with rfl | rfl
    · exact .letter rfl
    · exact .letter rfl
  · exact hback ▸ .letter rfl
  · exact htab ▸ .letter rfl
  · exact hline ▸ .letter rfl
  · exact hpage ▸ .letter rfl
  · exact hreturn ▸ .letter rfl
  · have hhigh := hexDigit?_digitChar (c.toNat / 16) (by omega)
    have hlow := hexDigit?_digitChar (c.toNat % 16) (by omega)
    have hzero : hexDigit? '0' = some 0 := by decide
    apply Character.code
    simp only [hexNumber?, List.foldlM_cons, List.foldlM_nil, hzero, hhigh, hlow]
    show some (16 * (16 * (16 * (16 * 0 + 0) + 0) + c.toNat / 16) + c.toNat % 16) = some c.toNat
    rw [Option.some.injEq]
    omega
  · simp only [Bool.or_eq_true, decide_eq_true_eq, not_or] at hself
    exact .plain (Nat.not_lt.mp hcontrol) hself.1 hself.2

theorem characters_escaped (s : List Char) : Characters s (s.flatMap escapedChar) := by
  induction s with
  | nil => exact .nil
  | cons c s ih => exact .cons (character_escapedChar c) ih

theorem quoted_spelled (s : String) : Quoted s (quoted s) := .mk (characters_escaped s.toList)

/-- Digits that stand for a number, the first no zero unless it is the only one. -/
structure Digits (n : Nat) (cs : List Char) : Prop where
  digit : ∀ c ∈ cs, c.isDigit = true
  some_digit : cs ≠ []
  lead : cs.head? = some '0' → cs = ['0']
  value : Nat.ofDigitChars 10 cs 0 = n

theorem eq_zero_of_head_toDigits {n : Nat} (h : (Nat.toDigits 10 n).head? = some '0') : n = 0 := by
  have hdigit : ∀ d < 10, d.digitChar = '0' → d = 0 := by decide
  induction n using Nat.strongRecOn with
  | ind n ih =>
    by_cases hn : n < 10
    · rw [Nat.toDigits_of_lt_base hn] at h
      exact hdigit n hn (Option.some.inj h)
    · rw [Nat.toDigits_of_base_le (by decide) (Nat.not_lt.mp hn),
        List.head?_append, List.head?_eq_some_head Nat.toDigits_ne_nil, Option.some_or,
        ← List.head?_eq_some_head] at h
      have hzero := ih (n / 10) (by omega) h
      omega

theorem digits_decimal (n : Nat) : Digits n (decimal n).toList := by
  rw [decimal, String.toList_ofList]
  refine ⟨?_, Nat.toDigits_ne_nil, ?_, Nat.ofDigitChars_toDigits (by decide) (by decide)⟩
  · intro c hc
    exact Nat.isDigit_of_mem_toDigits (by decide) (by decide) hc
  · intro hhead
    rw [eq_zero_of_head_toDigits hhead]
    rfl

def isSpace (c : Char) : Bool := c == ' ' || c == '\t' || c == '\n' || c == '\r'

/-- Nothing but space between tokens. -/
def Blank (cs : List Char) : Prop := ∀ c ∈ cs, isSpace c = true

mutual

inductive Value : Json → List Char → Prop
  | number {n : Nat} {cs : List Char} (hdigits : Digits n cs) : Value (.number n) cs
  | yes : Value (.bool true) ['t', 'r', 'u', 'e']
  | no : Value (.bool false) ['f', 'a', 'l', 's', 'e']
  | text {s : String} {cs : List Char} (hquoted : Quoted s cs) : Value (.text s) cs
  | emptyArray {cs : List Char} (hblank : Blank cs) : Value (.array []) ('[' :: (cs ++ [']']))
  | array {items : List Json} {cs : List Char} (hitems : Elements items cs) :
      Value (.array items) ('[' :: (cs ++ [']']))
  | emptyObject {cs : List Char} (hblank : Blank cs) :
      Value (.object []) ('\x7b' :: (cs ++ ['\x7d']))
  | object {fields : List (String × Json)} {cs : List Char} (hfields : Members fields cs) :
      Value (.object fields) ('\x7b' :: (cs ++ ['\x7d']))

/-- A value with space around it. -/
inductive Element : Json → List Char → Prop
  | mk {j : Json} {front cs back : List Char} (hfront : Blank front) (hvalue : Value j cs)
      (hback : Blank back) : Element j (front ++ cs ++ back)

inductive Elements : List Json → List Char → Prop
  | one {j : Json} {cs : List Char} (hitem : Element j cs) : Elements [j] cs
  | more {j : Json} {cs : List Char} {items : List Json} {ds : List Char} (hitem : Element j cs)
      (hitems : Elements items ds) : Elements (j :: items) (cs ++ ',' :: ds)

inductive Member : String × Json → List Char → Prop
  | mk {key : String} {j : Json} {front ks back cs : List Char} (hfront : Blank front)
      (hkey : Quoted key ks) (hback : Blank back) (hvalue : Element j cs) :
      Member (key, j) (front ++ ks ++ back ++ ':' :: cs)

inductive Members : List (String × Json) → List Char → Prop
  | one {field : String × Json} {cs : List Char} (hfield : Member field cs) : Members [field] cs
  | more {field : String × Json} {cs : List Char} {fields : List (String × Json)} {ds : List Char}
      (hfield : Member field cs) (hfields : Members fields ds) :
      Members (field :: fields) (cs ++ ',' :: ds)

end

/-- A JSON text: one value with space around it. -/
def IsText (j : Json) (text : String) : Prop := Element j text.toList

theorem blank_nil : Blank [] := by simp [Blank]

theorem blank_space : Blank [' '] := by simp [Blank, isSpace]

theorem blank_newLine (indent : Nat) : Blank (newLine indent) := by
  intro c hc
  rcases List.mem_cons.mp hc with rfl | hc
  · rfl
  · rw [List.eq_of_mem_replicate hc]
    rfl

/-- Induction over a value with hypotheses for the values inside it. -/
theorem induct {P : Json → Prop} (hnumber : ∀ n, P (.number n)) (hbool : ∀ b, P (.bool b))
    (htext : ∀ s, P (.text s)) (harray : ∀ items, (∀ j ∈ items, P j) → P (.array items))
    (hobject : ∀ fields, (∀ f ∈ fields, P f.2) → P (.object fields)) : ∀ j, P j
  | .number n => hnumber n
  | .bool b => hbool b
  | .text s => htext s
  | .array items => harray items fun j _ => induct hnumber hbool htext harray hobject j
  | .object fields => hobject fields fun f _ => induct hnumber hbool htext harray hobject f.2
termination_by j => sizeOf j
decreasing_by
  · have := List.sizeOf_lt_of_mem ‹j ∈ items›
    simp only [array.sizeOf_spec]
    omega
  · have := List.sizeOf_lt_of_mem ‹f ∈ fields›
    obtain ⟨key, value⟩ := f
    simp only [object.sizeOf_spec, Prod.mk.sizeOf_spec] at *
    omega

/-- The items of an array with the line end that closes it are its elements. -/
theorem elements_printed {indent : Nat} (close : Nat) (item : Json) (items : List Json)
    (h : ∀ j ∈ item :: items, Value j (chars indent j)) :
    Elements (item :: items)
      (newLine indent ++ chars indent item ++ itemChars indent items ++ newLine close) := by
  have hitem := h item List.mem_cons_self
  induction items generalizing item with
  | nil =>
    rw [itemChars, List.append_nil]
    exact .one (.mk (blank_newLine indent) hitem (blank_newLine close))
  | cons next items ih =>
    have hrest : ∀ j ∈ next :: items, Value j (chars indent j) :=
      fun j hj => h j (List.mem_cons_of_mem item hj)
    have hnext := ih next hrest (hrest next List.mem_cons_self)
    have hmore := Elements.more (.mk (blank_newLine indent) hitem blank_nil) hnext
    rw [itemChars]
    simpa using hmore

theorem member_printed {indent : Nat} (key : String) {value : Json} {back : List Char}
    (hvalue : Value value (chars indent value)) (hback : Blank back) :
    Member (key, value)
      (newLine indent ++ quoted key ++ [':', ' '] ++ chars indent value ++ back) := by
  have hmember := Member.mk (blank_newLine indent) (quoted_spelled key) blank_nil
    (.mk blank_space hvalue hback)
  simpa using hmember

/-- The fields of an object with the line end that closes it are its members. -/
theorem members_printed {indent : Nat} (close : Nat) (key : String) (value : Json)
    (fields : List (String × Json)) (hvalue : Value value (chars indent value))
    (h : ∀ f ∈ fields, Value f.2 (chars indent f.2)) :
    Members ((key, value) :: fields)
      (newLine indent ++ quoted key ++ [':', ' '] ++ chars indent value ++
        fieldChars indent fields ++ newLine close) := by
  induction fields generalizing key value with
  | nil =>
    rw [fieldChars, List.append_nil]
    exact .one (member_printed key hvalue (blank_newLine close))
  | cons next fields ih =>
    obtain ⟨nextKey, nextValue⟩ := next
    have hnext := ih nextKey nextValue (h _ List.mem_cons_self)
      fun f hf => h f (List.mem_cons_of_mem _ hf)
    have hmore := Members.more (member_printed key hvalue blank_nil) hnext
    rw [fieldChars]
    simpa using hmore

/-- What is printed for a value is derived as that value, at every depth. -/
theorem value_chars (j : Json) (indent : Nat) : Value j (chars indent j) := by
  induction j using induct generalizing indent with
  | hnumber n =>
    rw [chars]
    exact .number (digits_decimal n)
  | hbool b =>
    cases b with
    | true => exact .yes
    | false => exact .no
  | htext s =>
    rw [chars]
    exact .text (quoted_spelled s)
  | harray items ih =>
    cases items with
    | nil => exact .emptyArray blank_nil
    | cons item items =>
      rw [chars]
      exact .array (elements_printed indent item items fun j hj => ih j hj (indent + 1))
  | hobject fields ih =>
    cases fields with
    | nil => exact .emptyObject blank_nil
    | cons field fields =>
      obtain ⟨key, value⟩ := field
      rw [chars]
      exact .object (members_printed indent key value fields
        (ih _ List.mem_cons_self (indent + 1))
        fun f hf => ih f (List.mem_cons_of_mem _ hf) (indent + 1))

theorem isText_render (j : Json) : IsText j j.render := by
  have htext := Element.mk blank_nil (value_chars j 0) blank_nil
  simpa [IsText, render] using htext

end CMakeManual.Document.Json
