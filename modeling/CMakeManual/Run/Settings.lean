import CMakeManual.Manual.Keyword
import CMakeManual.Document.Markdown

/-! What a run is asked to do. -/
namespace CMakeManual.Run
open Manual Document

inductive Format where
  | markdown
  | json
  deriving DecidableEq

/-- A run writes a document, or prints tokens, nodes or the table of commands. -/
inductive Mode where
  | document
  | tokens (file : String)
  | nodes (file : String)
  | commandTable
  deriving DecidableEq

structure Settings where
  input : String
  output : String
  title : String
  format : Format
  includePrivate : Bool
  requiredness : Requiredness
  mode : Mode
  deriving DecidableEq

/-- The document's style: what the settings leave open is standard. -/
def Settings.style (settings : Settings) : Style :=
  { Style.standard with
    title := settings.title
    includePrivate := settings.includePrivate }

/-- The file that the run reads. -/
def Settings.sourceFile? (settings : Settings) : Option String :=
  match settings.mode with
  | .document => some settings.input
  | .tokens file | .nodes file => some file
  | .commandTable => none

end CMakeManual.Run
