/-! Markdown pages as lists of lines. -/
namespace CMakeManual.Document

/-- A line and the blank line that separates it from the next block. -/
def paragraph (line : String) : List String := [line, ""]

def fenced (language : String) (lines : List String) : List String :=
  ("```" ++ language) :: (lines ++ ["```"])

/-- A bullet list, which says so if there is nothing in it. -/
def bullets (items : List String) : List String :=
  match items with
  | [] => ["- _none_"]
  | items => items.map ("- " ++ ·)

/-- Every line ends with a newline. The blank line behind the last block separates it from
nothing and is left out. -/
def pageText (lines : List String) : String :=
  let kept := if lines.getLast? = some "" then lines.dropLast else lines
  String.join (kept.map (· ++ "\n"))

end CMakeManual.Document
