import CMakeManual.Document.Anchor
import CMakeManual.Document.Page
import CMakeManual.Document.Synopsis
import CMakeManual.Vocabulary.Naming

/-! The manual as a Markdown page: a title, an index that links every callable to its section and
its line, and the sections. Descriptions of parameters and keywords are left for authors. -/
namespace CMakeManual.Document
open Text Manual Vocabulary

structure Style where
  title : String
  includePrivate : Bool
  fenceLanguage : String
  synopsisIndent : Nat
  deriving DecidableEq

def defaultTitle : String := "CMake Documentation"

def Style.standard : Style := ⟨defaultTitle, false, "cpp", 2⟩

/-- The callables that the page shows. -/
def Style.shown (style : Style) (callables : List Callable) : List Callable :=
  callables.filter fun c => style.includePrivate || !isInternalName c.name

/-- The index line of a callable. -/
def indexLine (file : String) (callable : Callable) (slug : String) : String :=
  let place := file ++ "#L" ++ decimal callable.line
  "- [" ++ callable.name ++ "](#" ++ slug ++ ") — `" ++ callable.kind.word ++ "` — [" ++ place ++
    "](" ++ place ++ ")"

def parameterBullet (name : String) : String := "`" ++ name ++ "`: _Describe this parameter._"

def keywordBullets (label : String) (keys : List String) : List String :=
  keys.map fun key => "`" ++ key ++ "` (" ++ label ++ "): _Describe this keyword._"

def specLines (spec : KeywordSpec) : List String :=
  paragraph ("Parsed from `cmake_parse_arguments(" ++ spec.variablePrefix ++ " ...)`:") ++
    bullets (keywordBullets "option" spec.options.keys ++
      keywordBullets "one-value" spec.singleValue.keys ++
      keywordBullets "multi-value" spec.multiValue.keys) ++ [""]

/-- The documentation as the page shows it. -/
def shownDocumentation (documentation : String) : String :=
  let text := trimEnd documentation.toList
  if text.isEmpty then "_No documentation available._" else String.ofList text

/-- The section of a callable. -/
def sectionLines (style : Style) (callable : Callable) (slug : String) : List String :=
  ["<a id=\x22" ++ slug ++ "\x22></a>"] ++
    paragraph ("# " ++ callable.name) ++
    fenced style.fenceLanguage (synopsis style.synopsisIndent callable) ++ [""] ++
    paragraph ("**Type**: `" ++ callable.kind.word ++ "`") ++
    paragraph "### Parameters" ++
    bullets (callable.parameters.map parameterBullet) ++ [""] ++
    (if callable.specs.isEmpty then []
      else paragraph "### Keyword arguments" ++ callable.specs.flatMap specLines) ++
    paragraph (shownDocumentation callable.documentation)

/-- The callables that the page shows, each with its anchor. -/
def anchored (style : Style) (callables : List Callable) : List (Callable × String) :=
  let shown := style.shown callables
  shown.zip (anchors (shown.map Callable.name))

/-- The page for the callables found in `file`, named as links to it should name it. -/
def markdown (style : Style) (file : String) (callables : List Callable) : String :=
  let entries := anchored style callables
  let contents :=
    if entries.isEmpty then paragraph "> No functions or macros found."
    else
      paragraph "## Index" ++ entries.map (fun e => indexLine file e.1 e.2) ++ [""] ++
        entries.flatMap fun e => sectionLines style e.1 e.2
  pageText (paragraph ("# " ++ style.title) ++
    paragraph ("Generated from `" ++ file ++ "`.") ++ contents)

end CMakeManual.Document
