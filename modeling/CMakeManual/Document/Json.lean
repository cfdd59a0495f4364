import CMakeManual.Manual.Callable
import CMakeManual.Text.Decimal

/-! Callables as JSON text: two spaces of indent, fields in a fixed order, and only those
characters escaped that have to be. -/
namespace CMakeManual.Document
open Text Manual

inductive Json where
  | number (n : Nat)
  | bool (b : Bool)
  | text (s : String)
  | array (items : List Json)
  | object (fields : List (String × Json))

namespace Json

/-- A control character by its number, in four lower case hexadecimal digits. -/
def controlEscape (c : Char) : List Char :=
  ['\\', 'u', '0', '0', Nat.digitChar (c.toNat / 16), Nat.digitChar (c.toNat % 16)]

def escapedChar (c : Char) : List Char :=
  if c = '\x22' || c = '\\' then ['\\', c]
  else if c = '\x08' then ['\\', 'b']
  else if c = '\t' then ['\\', 't']
  else if c = '\n' then ['\\', 'n']
  else if c = '\x0c' then ['\\', 'f']
  else if c = '\r' then ['\\', 'r']
  else if c.toNat < 0x20 then controlEscape c
  else [c]

def quoted (s : String) : List Char := '\x22' :: (s.toList.flatMap escapedChar ++ ['\x22'])

def newLine (indent : Nat) : List Char := '\n' :: List.replicate (2 * indent) ' '

mutual

/-- The text of a value whose closing bracket stands `indent` levels in. -/
def chars (indent : Nat) : Json → List Char
  | .number n => (decimal n).toList
  | .bool true => "true".toList
  | .bool false => "false".toList
  | .text s => quoted s
  | .array [] => ['[', ']']
  | .array (item :: items) =>
      '[' :: (newLine (indent + 1) ++ chars (indent + 1) item ++ itemChars (indent + 1) items ++
        newLine indent ++ [']'])
  | .object [] => ['\x7b', '\x7d']
  | .object ((key, value) :: fields) =>
      '\x7b' :: (newLine (indent + 1) ++ quoted key ++ [':', ' '] ++ chars (indent + 1) value ++
        fieldChars (indent + 1) fields ++ newLine indent ++ ['\x7d'])

/-- Further items of an array. -/
def itemChars (indent : Nat) : List Json → List Char
  | [] => []
  | item :: items => ',' :: (newLine indent ++ chars indent item ++ itemChars indent items)

/-- Further fields of an object. -/
def fieldChars (indent : Nat) : List (String × Json) → List Char
  | [] => []
  | (key, value) :: fields =>
      ',' :: (newLine indent ++ quoted key ++ [':', ' '] ++ chars indent value ++
        fieldChars indent fields)

end

def render (j : Json) : String := String.ofList (j.chars 0)

def texts (ss : List String) : Json := .array (ss.map .text)

def ofSource : ListSource → Json
  | .emptyLiteral => .object [("kind", .text "empty_literal")]
  | .literal => .object [("kind", .text "literal")]
  | .reference name resolved =>
      .object [("kind", .text "variable"), ("name", .text name), ("resolved", .bool resolved)]

def ofSpec (spec : KeywordSpec) : Json :=
  .object
    [("prefix", .text spec.variablePrefix),
      ("options", texts spec.options.keys),
      ("single_value_keys", texts spec.singleValue.keys),
      ("multi_value_keys", texts spec.multiValue.keys),
      ("required_options", texts spec.options.required),
      ("required_single_value_keys", texts spec.singleValue.required),
      ("required_multi_value_keys", texts spec.multiValue.required),
      ("sources", .object
        [("options", ofSource spec.options.source),
          ("single_value", ofSource spec.singleValue.source),
          ("multi_value", ofSource spec.multiValue.source)])]

def ofCallable (callable : Callable) : Json :=
  .object
    [("kind", .text callable.kind.word),
      ("name", .text callable.name),
      ("declared_parameters", texts callable.parameters),
      ("documentation", .text callable.documentation),
      ("source_line", .number callable.line),
      ("keyword_specs", .array (callable.specs.map ofSpec))]

end Json

/-- The callables as one JSON array, without a final newline. -/
def json (callables : List Callable) : String := (Json.array (callables.map Json.ofCallable)).render

end CMakeManual.Document
