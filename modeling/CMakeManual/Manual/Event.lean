import CMakeManual.Vocabulary.Role

/-! What an analysis reports while it works. -/
namespace CMakeManual.Manual
open Vocabulary

inductive Event where
  | unnamedBlock (line : Nat) (kind : BlockKind)
  | found (name : String) (line : Nat) (kind : BlockKind)
  | discarded (opened closer : BlockKind)
  | strayCloser (line : Nat) (kind : BlockKind)
  | leftOpen (count : Nat)
  | shortCall (line : Nat)
  | unknownList (name : String)
  deriving DecidableEq

/-- A value reported with an event. A quoted one is shown between quotes in a log. -/
inductive FieldValue where
  | number (n : Nat)
  | word (s : String)
  | quoted (s : String)
  deriving DecidableEq

def Event.message : Event → String
  | .unnamedBlock .. => "skipping unnamed block"
  | .found .. => "found callable"
  | .discarded .. => "discarding block interrupted by a mismatched closer"
  | .strayCloser .. => "ignoring closer with no open block"
  | .leftOpen _ => "blocks left open at end of script"
  | .shortCall _ => "skipping cmake_parse_arguments call with too few arguments"
  | .unknownList _ => "key list refers to a variable with no prior set() in this body"

/-- The values of an event in the order in which a log shows them. -/
def Event.fields : Event → List (String × FieldValue)
  | .unnamedBlock line kind => [("line", .number line), ("kind", .word kind.word)]
  | .found name line kind =>
      [("name", .word name), ("line", .number line), ("kind", .word kind.word)]
  | .discarded opened closer => [("open", .word opened.word), ("closer", .word closer.word)]
  | .strayCloser line kind => [("line", .number line), ("kind", .word kind.word)]
  | .leftOpen count => [("unclosed", .number count)]
  | .shortCall line => [("line", .number line)]
  | .unknownList name => [("variable", .quoted name)]

end CMakeManual.Manual
