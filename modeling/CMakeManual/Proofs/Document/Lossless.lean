import CMakeManual.Proofs.Document.JsonReader

/-! JSON documents lose nothing. Callables are decoded from a JSON value by the names of its
fields, and a document for callables is a JSON text whose value decodes to them. -/
namespace CMakeManual.Document
open Text Manual Vocabulary

namespace Json

def field? (name : String) : Json → Option Json
  | .object fields => fields.lookup name
  | _ => none

def text? : Json → Option String
  | .text s => some s
  | _ => none

def bool? : Json → Option Bool
  | .bool b => some b
  | _ => none

def number? : Json → Option Nat
  | .number n => some n
  | _ => none

/-- An array whose items are all decoded. -/
def list? {α : Type} (item? : Json → Option α) : Json → Option (List α)
  | .array items => items.mapM item?
  | _ => none

/-- The variable of a reference may have any name: the kind is told by its own field. -/
def source? (j : Json) : Option ListSource := do
  match ← (← j.field? "kind").text? with
  | "empty_literal" => some .emptyLiteral
  | "literal" => some .literal
  | "variable" =>
      let name ← (← j.field? "name").text?
      let resolved ← (← j.field? "resolved").bool?
      some (.reference name resolved)
  | _ => none

/-- One of the three lists, from its fields in a spec. -/
def keyList? (keys required source : String) (spec : Json) : Option KeyList := do
  let keys ← (← spec.field? keys).list? text?
  let required ← (← spec.field? required).list? text?
  let source ← (← (← spec.field? "sources").field? source).source?
  some { keys, required, source }

def spec? (j : Json) : Option KeywordSpec := do
  let variablePrefix ← (← j.field? "prefix").text?
  let options ← j.keyList? "options" "required_options" "options"
  let singleValue ← j.keyList? "single_value_keys" "required_single_value_keys" "single_value"
  let multiValue ← j.keyList? "multi_value_keys" "required_multi_value_keys" "multi_value"
  some { variablePrefix, options, singleValue, multiValue }

def kind? : String → Option BlockKind
  | "function" => some .functionBlock
  | "macro" => some .macroBlock
  | _ => none

def callable? (j : Json) : Option Callable := do
  let kind ← kind? (← (← j.field? "kind").text?)
  let name ← (← j.field? "name").text?
  let parameters ← (← j.field? "declared_parameters").list? text?
  let documentation ← (← j.field? "documentation").text?
  let line ← (← j.field? "source_line").number?
  let specs ← (← j.field? "keyword_specs").list? spec?
  some { kind, name, parameters, documentation, line, specs }

def callables? (j : Json) : Option (List Callable) := j.list? callable?

@[simp] theorem field?_first (name : String) (value : Json) (fields : List (String × Json)) :
    (Json.object ((name, value) :: fields)).field? name = some value :=
  List.lookup_cons_self

@[simp] theorem field?_later {name other : String} (h : name ≠ other) (value : Json)
    (fields : List (String × Json)) :
    (Json.object ((other, value) :: fields)).field? name = (Json.object fields).field? name := by
  rw [field?, field?, List.lookup_cons, beq_false_of_ne h]

@[simp] theorem text?_text (s : String) : (Json.text s).text? = some s := rfl

@[simp] theorem bool?_bool (b : Bool) : (Json.bool b).bool? = some b := rfl

@[simp] theorem number?_number (n : Nat) : (Json.number n).number? = some n := rfl

theorem list?_map {α : Type} {item? : Json → Option α} {item : α → Json}
    (h : ∀ x, item? (item x) = some x) (xs : List α) :
    list? item? (.array (xs.map item)) = some xs := by
  rw [list?]
  induction xs with
  | nil => rfl
  | cons x xs ih => simp [h, ih]

@[simp] theorem list?_texts (ss : List String) : list? text? (texts ss) = some ss :=
  list?_map text?_text ss

@[simp] theorem source?_ofSource (source : ListSource) :
    (ofSource source).source? = some source := by
  cases source <;> simp [ofSource, source?]

theorem spec?_ofSpec (spec : KeywordSpec) : (ofSpec spec).spec? = some spec := by
  simp [spec?, keyList?, ofSpec]

@[simp] theorem kind?_word (kind : BlockKind) : kind? kind.word = some kind := by
  cases kind <;> rfl

theorem callable?_ofCallable (callable : Callable) :
    (ofCallable callable).callable? = some callable := by
  simp [callable?, ofCallable, list?_map spec?_ofSpec]

theorem callables?_encoded (callables : List Callable) :
    (Json.array (callables.map ofCallable)).callables? = some callables :=
  list?_map callable?_ofCallable callables

end Json

/-- The callables of a JSON document. -/
def callablesOfJson (text : String) : Option (List Callable) :=
  (Json.read text).bind Json.callables?

/-- JSON documents lose nothing: they are JSON texts, the callables are decoded again from
whichever value the text is derived as, and no two lists of callables have the same document. -/
theorem json_lossless (callables : List Callable) :
    (∃ j, Json.IsText j (json callables)) ∧
    (∀ j, Json.IsText j (json callables) → j.callables? = some callables) ∧
    callablesOfJson (json callables) = some callables ∧
    ∀ others, json others = json callables → others = callables := by
  have htext (cs : List Callable) :
      Json.IsText (.array (cs.map Json.ofCallable)) (json cs) := Json.isText_render _
  have hdecoded (cs : List Callable) : callablesOfJson (json cs) = some cs := by
    rw [callablesOfJson, Json.read_of_isText (htext cs), Option.bind_some, Json.callables?_encoded]
  refine ⟨⟨_, htext callables⟩, ?_, hdecoded callables, ?_⟩
  · intro j hj
    rw [hj.unique (htext callables), Json.callables?_encoded]
  · intro others h
    have hothers := hdecoded others
    rw [h, hdecoded callables] at hothers
    exact (Option.some.inj hothers).symm

/-- Quotes, backslashes and control characters in its texts, and a list in a variable that has the
name of a field. -/
def awkwardCallable : Callable :=
  { kind := .macroBlock
    name := "a\x22b\\c"
    parameters := ["\x00", "\x1f"]
    documentation := "first\n\tsecond"
    line := 12
    specs :=
      [⟨"", ⟨["kind", "]"], ["]"], .reference "kind" true⟩, ⟨[], [], .emptyLiteral⟩,
        ⟨[","], [], .literal⟩⟩] }

/-- The document has one value, and it decodes to the callable. -/
theorem json_lossless_awkward :
    ∃ j, Json.IsText j (json [awkwardCallable]) ∧ j.callables? = some [awkwardCallable] ∧
      callablesOfJson (json [awkwardCallable]) = some [awkwardCallable] := by
  obtain ⟨⟨j, htext⟩, hvalue, hdecoded, -⟩ := json_lossless [awkwardCallable]
  exact ⟨j, htext, hvalue j htext, hdecoded⟩

end CMakeManual.Document
