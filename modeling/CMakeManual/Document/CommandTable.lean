import CMakeManual.Document.Page
import CMakeManual.Vocabulary.Entry
import CMakeManual.Vocabulary.Naming

/-! The table of recognised commands, with their examples. -/
namespace CMakeManual.Document
open Vocabulary

def roleDescription : Role → String
  | .opens kind =>
      "opens `" ++ kind.word ++ "` (" ++
        (if kind.isScoped then "own scope" else "caller's scope") ++ ")"
  | .closes kind => "closes `" ++ kind.word ++ "`"
  | .assigns => "assignment"
  | .parsesArguments => "keyword parsing"

def tableRow (cells : List String) : String := "| " ++ " | ".intercalate cells ++ " |"

def commandRow (role : Role) : String :=
  tableRow [role.entry.identifier, "`" ++ role.canonical ++ "`", roleDescription role,
    role.entry.since.getD "", role.entry.stability.word, role.entry.description]

def exampleLines (e : Example) : List String :=
  fenced "cmake" [e.code] ++ [""] ++ (e.note.map paragraph).getD []

def commandExamples (role : Role) : List String :=
  match role.entry.examples with
  | [] => []
  | examples => paragraph ("### `" ++ role.canonical ++ "`") ++ examples.flatMap exampleLines

def commandTable : String :=
  pageText (paragraph "# Recognized commands" ++
    [tableRow ["Id", "Canonical", "Role", "Since", "Stability", "Description"],
      "|---|---|---|---|---|---|"] ++
    Role.all.map commandRow ++ [""] ++
    paragraph ("Any command whose name ends in `" ++ validationEnding ++
      "` is read as a validation call marking a parsed keyword as required.") ++
    paragraph "## Examples" ++ Role.all.flatMap commandExamples)

end CMakeManual.Document
